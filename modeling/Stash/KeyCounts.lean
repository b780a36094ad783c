import Stash.Eviction

/-!
# Key statistics

The store counts its keys by kind as they come and go: storing a value under a key adjusts two
counters when the kind changes, removing a key adjusts one, and `ReplaceWith` counts again.  A value
that is changed where it lies keeps its kind and no counter moves.

So the counters are exact after any operations, and together they are the number of keys.
-/

namespace Stash

open GoMap List

namespace Store

variable {s s' : Store} {key : Bytes}

/-- The counters say how many keys of each kind are stored. -/
def Counted (s : Store) : Prop :=
  ∀ kind, s.keyKindCounts kind = countKinds (s.allEntries (MapOrder.id Bytes)) kind

/-- Whether the value under a key counts for a kind. -/
def countOf (value : Option ValueObject) (kind : Kind) : Int :=
  if value.map (fun v => v.payload.kind) = some kind then 1 else 0

theorem countKinds_perm {entries entries' : List (Bytes × ValueObject)}
    (h : entries.Perm entries') (kind : Kind) : countKinds entries kind = countKinds entries' kind :=
  congrArg Int.ofNat (h.filter _).length_eq

theorem countKinds_entryOf (s : Store) (key : Bytes) (others : List (Bytes × ValueObject))
    (kind : Kind) : countKinds (s.entryOf key ++ others) kind =
      countOf (s.lookup key) kind + countKinds others kind := by
  unfold entryOf countKinds countOf
  cases s.lookup key with
  | none => simp
  | some value =>
    by_cases hkind : value.payload.kind = kind
    · simp [hkind, Int.add_comm]
    · simp [hkind]

/-- **A change of one key changes the counts by what it counted and counts for.** -/
theorem countKinds_update (h : ∀ k, k ≠ key → s'.lookup k = s.lookup k)
    (order order' : MapOrder Bytes) (kind : Kind) :
    countKinds (s'.allEntries order') kind = countKinds (s.allEntries order) kind
      - countOf (s.lookup key) kind + countOf (s'.lookup key) kind := by
  rw [countKinds_perm (allEntries_perm h (MapOrder.id Bytes) order'), countKinds_entryOf,
    countKinds_perm (@allEntries_perm s s key (fun _ _ => rfl) (MapOrder.id Bytes) order),
    countKinds_entryOf]
  omega

theorem countKinds_congr (h : ∀ k, s'.lookup k = s.lookup k) (order order' : MapOrder Bytes)
    (kind : Kind) :
    countKinds (s'.allEntries order') kind = countKinds (s.allEntries order) kind := by
  rw [@countKinds_update s s' [] (fun k _ => h k) order order', h]
  omega

theorem keyKindCounts_adjustCount (s : Store) (value : Option ValueObject) (delta : Int)
    (kind : Kind) : (s.adjustKeyKindCount value delta).keyKindCounts kind =
      s.keyKindCounts kind + delta * countOf value kind := by
  unfold adjustKeyKindCount countOf
  cases value with
  | none => simp
  | some value =>
    by_cases hkind : kind = value.payload.kind
    · simp [hkind]
    · simp [Function.update_of_ne hkind, Ne.symm hkind]

theorem keyKindCounts_setKey (s : Store) (key : Bytes) (value : ValueObject) (kind : Kind) :
    (s.setKeyLocked key value).keyKindCounts kind =
      s.keyKindCounts kind - countOf (s.lookup key) kind + countOf (some value) kind := by
  change (ite _ _ s).keyKindCounts kind = _
  split
  · simp only [keyKindCounts_adjustCount]
    omega
  · rename_i hsame
    rw [not_not] at hsame
    simp only [countOf, hsame, Option.map_some]
    omega

theorem keyKindCounts_removeKey (s : Store) (key : Bytes) (kind : Kind) :
    (s.removeKeyLocked key).keyKindCounts kind =
      s.keyKindCounts kind - countOf (s.lookup key) kind := by
  refine (s.keyKindCounts_adjustCount _ _ _).trans ?_
  omega

theorem kept_counted : Kept (fun _ => True) Counted where
  stored _ _ := trivial
  congr h hsame hcounts kind := by
    rw [hcounts, h kind, countKinds_congr hsame]
  remove {s} key h kind := by
    have hothers : ∀ k, k ≠ key → (s.removeKeyLocked key).lookup k = s.lookup k :=
      fun k hk => by rw [lookup_removeKey, if_neg hk]
    rw [keyKindCounts_removeKey, h kind, countKinds_update hothers, lookup_removeKey,
      if_pos rfl]
    exact (Int.add_zero _).symm
  set {s} key value _ h kind := by
    have hothers : ∀ k, k ≠ key → (s.setKeyLocked key value).lookup k = s.lookup k :=
      fun k hk => by rw [lookup_setKey, if_neg hk]
    rw [keyKindCounts_setKey, h kind, countKinds_update hothers, lookup_setKey,
      if_pos rfl]
  put {s key old value} hold hkind _ h kind := by
    have hothers : ∀ k, k ≠ key → (s.put key value).lookup k = s.lookup k :=
      fun k hk => by rw [lookup_put, if_neg hk]
    rw [countKinds_update hothers, lookup_put, if_pos rfl, hold, ← h kind]
    simp only [countOf, Option.map_some, hkind]
    exact (Int.sub_add_cancel _ _).symm

theorem counted_newStore (hash : Bytes → Fin 256) : (newStore hash).Counted := by
  intro kind
  have hempty : (newStore hash).allEntries (MapOrder.id Bytes) = [] :=
    eq_nil_iff_forall_not_mem.mpr fun e he => by cases mem_allEntries.mp he
  rw [hempty]
  rfl

/-- `ReplaceWith` counts what it takes over, and the sweep that follows keeps the counters. -/
theorem counted_replaceWith (s other : Store) (env : Env) : (s.replaceWith other env).Counted := by
  have hcounted : ∀ t : Store, t.keyKindCounts = countKinds (other.allEntries (env.order 0)) →
      (∀ k, t.lookup k = other.lookup k) → t.Counted := by
    intro t hcounts hsame kind
    rw [hcounts]
    exact (countKinds_congr hsame _ _ kind).symm
  unfold replaceWith
  refine kept_counted.publish ?_
  split
  · refine kept_counted.recalculate ?_ _ _
    exact hcounted _ rfl fun k => s.lookup_replacementShard other (env.order 0) k
  · exact hcounted _ rfl fun k => s.lookup_replacementShard other (env.order 0) k

theorem Reachable.counted (hs : s.Reachable) : s.Counted := by
  refine kept_counted.reachable hs counted_newStore (fun s other env _ => s.counted_replaceWith other env)
    (fun m env => ?_) fun _ _ _ => trivial
  cases m.plan env <;> simp [Plan.Keeps]

/-- All kinds, in the order of `keyStatsKinds`. -/
def keyStatsKinds : List Kind :=
  [.string, .list, .hash, .set, .zset, .stream]

/-- `KeyStats().TotalKeys`. -/
def totalKeys (s : Store) : Int :=
  (keyStatsKinds.map s.keyKindCounts).sum

theorem sum_countKinds (entries : List (Bytes × ValueObject)) :
    (keyStatsKinds.map (countKinds entries)).sum = entries.length := by
  induction entries with
  | nil => rfl
  | cons e entries ih =>
    have hcons : ∀ kind, countKinds (e :: entries) kind =
        countKinds entries kind + if e.2.payload.kind = kind then 1 else 0 := by
      intro kind
      unfold countKinds
      by_cases hkind : e.2.payload.kind = kind <;> simp [hkind]
    simp only [keyStatsKinds, map_cons, map_nil, sum_cons, sum_nil, hcons, length_cons] at ih ⊢
    cases e.2.payload.kind <;> simp <;> omega

/-- **Key statistics are exact.**  In every store that operations lead to, each counter is the number
of keys of its kind, in whatever order they are met, and the total is `Len`. -/
theorem key_statistics_exact (hs : s.Reachable) :
    (∀ (order : MapOrder Bytes) (kind : Kind), s.keyKindCounts kind =
      ((s.allEntries order).filter fun e => e.2.payload.kind = kind).length) ∧
      s.totalKeys = s.totalKeyCountLocked := by
  refine ⟨fun order kind => (hs.counted kind).trans (countKinds_congr (fun _ => rfl) _ _ kind), ?_⟩
  rw [totalKeys, funext hs.counted, sum_countKinds, totalKeyCount_eq s (MapOrder.id Bytes),
    length_map]

/-- A list is overwritten by a string, and another one is drained. -/
theorem key_statistics_exact_push :
    let s := [StoreOp.write [1] (.push true [[2]]), .write [1] (.set [3] 0),
      .write [4] (.push true [[5]]), .write [4] (.pop true)].foldl
        (fun s op => (op.run s (.frozen (.ofMillis 1000 (by decide)))).1) (newStore fun _ => 0)
    s.totalKeys = s.totalKeyCountLocked :=
  (key_statistics_exact (.step _ _ (.step _ _ (.step _ _ (.step _ _ (.new fun _ => 0)
    fun _ h => by cases h) fun _ h => by cases h) fun _ h => by cases h) fun _ h => by cases h)).2

end Store

end Stash
