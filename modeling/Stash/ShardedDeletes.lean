import Mathlib.Algebra.BigOperators.Fin
import Mathlib.Algebra.Order.BigOperators.Group.Finset
import Stash.StoreSimulation

/-!
# Deleting many keys, shard by shard

`DeleteMany` groups its keys by shard first, with a counting sort: it counts the keys of each shard,
gives each shard the place behind the shards before it, and puts each key at the next free place of
its shard.  Every shard gets its own keys in the order given (`keysForShard_eq`).

Deleting one key leaves the others alone, so the order of the keys does not matter, and the result
is that of deleting them one by one.
-/

namespace Stash

open List Function

/-! ## Grouping -/

/-- `shardKeyGroups`. -/
structure ShardKeyGroups (n : Nat) where
  counts : Fin n → Nat
  offsets : Fin n → Nat
  keys : List Bytes

namespace ShardKeyGroups

variable {n : Nat} (shardIndex : Bytes → Fin n)

/-- The keys of a shard, in the order given. -/
def own (keys : List Bytes) (i : Fin n) : List Bytes :=
  keys.filter fun key => shardIndex key = i

/-- The loop that counts. -/
def countKeys (keys : List Bytes) : Fin n → Nat :=
  keys.foldl (fun counts key =>
    update counts (shardIndex key) (counts (shardIndex key) + 1)) fun _ => 0

/-- The loop over the counts, with the total so far. -/
def offsetsLoop (counts : Fin n → Nat) : List (Fin n) → Nat → (Fin n → Nat) → Fin n → Nat
  | [], _, offsets => offsets
  | i :: rest, total, offsets =>
    offsetsLoop counts rest (total + counts i) (update offsets i total)

/-- The loop that places the keys. -/
def placeKeys : List Bytes → List Bytes → (Fin n → Nat) → List Bytes
  | [], groupedKeys, _ => groupedKeys
  | key :: keys, groupedKeys, next =>
    placeKeys keys (groupedKeys.set (next (shardIndex key)) key)
      (update next (shardIndex key) (next (shardIndex key) + 1))

/-- `groupKeysByShard`. -/
def group (keys : List Bytes) : ShardKeyGroups n :=
  let counts := countKeys shardIndex keys
  let offsets := offsetsLoop counts (finRange n) 0 fun _ => 0
  ⟨counts, offsets, placeKeys shardIndex keys (replicate keys.length []) offsets⟩

def keysForShard (g : ShardKeyGroups n) (shardID : Fin n) : List Bytes :=
  (g.keys.drop (g.offsets shardID)).take (g.counts shardID)

theorem own_cons (key : Bytes) (keys : List Bytes) (i : Fin n) : own shardIndex (key :: keys) i =
    if shardIndex key = i then key :: own shardIndex keys i else own shardIndex keys i := by
  unfold own
  by_cases h : shardIndex key = i <;> simp [h]

variable (keys : List Bytes)

theorem countKeys_eq (i : Fin n) :
    countKeys shardIndex keys i = (own shardIndex keys i).length := by
  have hloop : ∀ counts : Fin n → Nat, keys.foldl (fun counts key =>
      update counts (shardIndex key) (counts (shardIndex key) + 1)) counts i =
        counts i + (own shardIndex keys i).length := by
    induction keys with
    | nil => exact fun _ => rfl
    | cons key keys ih =>
      intro counts
      rw [foldl_cons, ih, own_cons]
      by_cases h : shardIndex key = i
      · subst h
        simp only [update_self, if_pos, length_cons]
        omega
      · rw [update_of_ne (Ne.symm h), if_neg h]
  exact (hloop _).trans (Nat.zero_add _)

/-- The place of a shard in the loop is the total when the loop comes to it. -/
theorem offsetsLoop_eq (counts : Fin n → Nat) {shards : List (Fin n)} (hs : shards.Pairwise (· < ·))
    (total : Nat) (offsets : Fin n → Nat) (i : Fin n) : offsetsLoop counts shards total offsets i =
      if i ∈ shards then total + ((shards.filter (· < i)).map counts).sum else offsets i := by
  induction shards generalizing total offsets with
  | nil => rfl
  | cons first shards ih =>
    obtain ⟨hfirst, hs⟩ := pairwise_cons.mp hs
    rw [offsetsLoop, ih hs]
    by_cases hi : i = first
    · subst hi
      have hnone : (i :: shards).filter (· < i) = [] := by
        simp only [filter_eq_nil_iff, mem_cons, decide_eq_true_eq, not_lt]
        rintro j (rfl | hj)
        · exact le_rfl
        · exact (hfirst j hj).le
      rw [if_neg fun h => lt_irrefl i (hfirst i h), update_self, if_pos mem_cons_self, hnone]
      rfl
    · by_cases hmem : i ∈ shards
      · rw [if_pos hmem, if_pos (mem_cons_of_mem _ hmem), filter_cons_of_pos (by simp [hfirst i hmem]),
          map_cons, sum_cons]
        omega
      · rw [if_neg hmem, if_neg (by simp [hi, hmem]), update_of_ne hi]

/-- A shard lies behind all keys of the shards before it. -/
theorem offsets_eq (i : Fin n) : (group shardIndex keys).offsets i =
    ∑ j ∈ Finset.Iio i, (own shardIndex keys j).length := by
  have hloop := offsetsLoop_eq (countKeys shardIndex keys) (pairwise_lt_finRange n) 0 (fun _ => 0) i
  rw [if_pos (mem_finRange i), Nat.zero_add] at hloop
  refine hloop.trans ?_
  rw [← sum_toFinset _ ((nodup_finRange n).filter _)]
  refine Finset.sum_congr (by ext j; simp) fun j _ => countKeys_eq shardIndex keys j

theorem sum_own : ∑ i, (own shardIndex keys i).length = keys.length := by
  induction keys with
  | nil => simp [own]
  | cons key keys ih =>
    have hcons : ∀ i, (own shardIndex (key :: keys) i).length =
        (own shardIndex keys i).length + if shardIndex key = i then 1 else 0 := by
      intro i
      rw [own_cons]
      split <;> simp
    simp only [hcons, Finset.sum_add_distrib, ih, Finset.sum_ite_eq, Finset.mem_univ, if_true,
      length_cons]

/-- What is left to place fits behind the next free places, without overlap. -/
structure Fits (keys groupedKeys : List Bytes) (next : Fin n → Nat) : Prop where
  inside : ∀ i, next i + (own shardIndex keys i).length ≤ groupedKeys.length
  apart : ∀ i j, i < j → next i + (own shardIndex keys i).length ≤ next j

variable {shardIndex}

/-- **Placing the keys** gives each shard its keys and changes nothing else. -/
theorem placeKeys_spec {keys groupedKeys : List Bytes} {next : Fin n → Nat}
    (h : Fits shardIndex keys groupedKeys next) :
    (∀ i p, p < (own shardIndex keys i).length →
      (placeKeys shardIndex keys groupedKeys next)[next i + p]? = (own shardIndex keys i)[p]?) ∧
    ∀ q, (∀ i, q < next i ∨ next i + (own shardIndex keys i).length ≤ q) →
      (placeKeys shardIndex keys groupedKeys next)[q]? = groupedKeys[q]? := by
  induction keys generalizing groupedKeys next with
  | nil => exact ⟨fun i p hp => absurd hp (Nat.not_lt_zero p), fun q _ => rfl⟩
  | cons key keys ih =>
    have hinside := h.inside (shardIndex key)
    rw [own_cons, if_pos rfl, length_cons] at hinside
    have hnext : ∀ i, update next (shardIndex key) (next (shardIndex key) + 1) i +
        (own shardIndex keys i).length = next i + (own shardIndex (key :: keys) i).length := by
      intro i
      rw [own_cons]
      by_cases hi : i = shardIndex key
      · subst hi
        rw [update_self, if_pos rfl, length_cons]
        omega
      · rw [update_of_ne hi, if_neg (Ne.symm hi)]
    have hlater : ∀ i, next i ≤ update next (shardIndex key) (next (shardIndex key) + 1) i := by
      intro i
      by_cases hi : i = shardIndex key
      · subst hi
        rw [update_self]
        omega
      · rw [update_of_ne hi]
    obtain ⟨hplaced, hrest⟩ := @ih (groupedKeys.set (next (shardIndex key)) key) _
      ⟨fun i => by rw [hnext, length_set]; exact h.inside i,
        fun i j hij => (hnext i).le.trans ((h.apart i j hij).trans (hlater j))⟩
    refine ⟨fun i p hp => ?_, fun q hq => ?_⟩
    · by_cases hi : i = shardIndex key
      · subst hi
        rw [own_cons, if_pos rfl] at hp ⊢
        cases p with
        | zero =>
          -- the place is the first of its shard and is not used again
          refine (hrest _ fun j => ?_).trans ?_
          · rcases lt_trichotomy j (shardIndex key) with hj | rfl | hj
            · exact .inr ((hnext j).le.trans (h.apart j _ hj))
            · exact .inl (by rw [update_self]; exact Nat.lt_succ_self _)
            · have hbehind := (h.apart _ j hj).trans (hlater j)
              rw [own_cons, if_pos rfl, length_cons] at hbehind
              exact .inl (by omega)
          · rw [Nat.add_zero, getElem?_set_self (by omega)]
            rfl
        | succ p =>
          have hp' := hplaced (shardIndex key) p (Nat.lt_of_succ_lt_succ hp)
          rw [update_self] at hp'
          rw [getElem?_cons_succ, ← hp', Nat.add_right_comm, Nat.add_assoc]
          rfl
      · rw [own_cons, if_neg (Ne.symm hi)] at hp ⊢
        have hp' := hplaced i p hp
        rwa [update_of_ne hi] at hp'
    · refine (hrest q fun i => ?_).trans (getElem?_set_ne ?_)
      · exact (hq i).imp (fun hlt => hlt.trans_le (hlater i)) fun hle => (hnext i).le.trans hle
      · have hown := hq (shardIndex key)
        rw [own_cons, if_pos rfl, length_cons] at hown
        omega

variable (keys : List Bytes)

theorem fits_group : Fits shardIndex keys (replicate keys.length [])
    (group shardIndex keys).offsets := by
  have hnext : ∀ i, (group shardIndex keys).offsets i + (own shardIndex keys i).length =
      ∑ j ∈ Finset.Iic i, (own shardIndex keys j).length := by
    intro i
    rw [offsets_eq, ← Finset.Iio_insert, Finset.sum_insert Finset.notMem_Iio_self, Nat.add_comm]
  refine ⟨fun i => ?_, fun i j hij => ?_⟩
  · rw [hnext, length_replicate, ← sum_own shardIndex keys]
    exact Finset.sum_le_sum_of_subset (Finset.subset_univ _)
  · rw [hnext, offsets_eq]
    exact Finset.sum_le_sum_of_subset fun k hk =>
      Finset.mem_Iio.mpr ((Finset.mem_Iic.mp hk).trans_lt hij)

/-- **Each shard has its own keys**, in the order given. -/
theorem keysForShard_eq (i : Fin n) :
    (group shardIndex keys).keysForShard i = keys.filter fun key => shardIndex key = i := by
  refine ext_getElem? fun p => ?_
  have hcount : (group shardIndex keys).counts i = (own shardIndex keys i).length :=
    countKeys_eq shardIndex keys i
  rw [keysForShard, getElem?_take, getElem?_drop, hcount]
  split
  · exact (placeKeys_spec (fits_group keys)).1 i p ‹_›
  · exact (getElem?_eq_none (Nat.not_lt.mp ‹_›)).symm

/-- All groups together hold the keys. -/
theorem groups_perm : ((finRange n).flatMap (group shardIndex keys).keysForShard).Perm keys := by
  refine perm_iff_count.mpr fun key => ?_
  have hown : ∀ i, ((group shardIndex keys).keysForShard i).count key =
      if shardIndex key = i then keys.count key else 0 := by
    intro i
    rw [keysForShard_eq]
    by_cases hi : shardIndex key = i
    · rw [if_pos hi, count_filter (by simpa using hi)]
    · rw [if_neg hi]
      exact count_eq_zero_of_not_mem fun h => hi (by simpa using (mem_filter.mp h).2)
  rw [count_flatMap, ← Fin.sum_univ_def]
  simp only [comp_apply, hown, Finset.sum_ite_eq, Finset.mem_univ, if_true]

end ShardKeyGroups

/-! ## Deleting -/

namespace Store

theorem groupKeysByShard_eq (s : Store) (keys : List Bytes) : s.groupKeysByShard keys =
    (finRange s.shardCount).flatMap (ShardKeyGroups.group s.shardIndex keys).keysForShard := by
  rw [groupKeysByShard, funext (ShardKeyGroups.keysForShard_eq keys)]

theorem deleteKey_eq {s : Store} {key : Bytes} {value : ValueObject}
    (h : s.lookup key = some value) : s.deleteKeyLocked key =
      ((s.addUsed (if s.maxMemoryEnabled then -approximateValueObjectSize key value else 0)).adjustKeyKindCount
        (some value) (-1)).remove key := by
  rw [deleteKeyLocked, h]
  simp only [deleteKeyWithSizeLocked, removeKeyLocked, h]
  split
  · rw [lookup_addUsed, h]
  · rw [h, addUsed, Int.add_zero]

theorem update_erase_comm {n : Nat} (shards : Fin n → GoMap.Map Bytes ValueObject) (i j : Fin n)
    (a b : Bytes) : update (update shards i ((shards i).erase a)) j
        ((update shards i ((shards i).erase a) j).erase b) =
      update (update shards j ((shards j).erase b)) i
        ((update shards j ((shards j).erase b) i).erase a) := by
  by_cases hi : i = j
  · subst hi
    simp only [update_self, update_idem, AList.erase_erase a b]
  · rw [update_of_ne hi, update_of_ne (Ne.symm hi), update_comm hi]

/-- Two keys are deleted in any order. -/
theorem deleteKey_comm (s : Store) (a b : Bytes) :
    (s.deleteKeyLocked a).deleteKeyLocked b = (s.deleteKeyLocked b).deleteKeyLocked a := by
  by_cases hab : a = b
  · rw [hab]
  have hb := s.lookup_deleteKey a b
  have ha := s.lookup_deleteKey b a
  rw [if_neg (Ne.symm hab)] at hb
  rw [if_neg hab] at ha
  cases hva : s.lookup a with
  | none => rw [deleteKey_of_none hva, deleteKey_of_none (ha.trans hva)]
  | some va =>
    cases hvb : s.lookup b with
    | none => rw [deleteKey_of_none hvb, deleteKey_of_none (hb.trans hvb)]
    | some vb =>
      rw [deleteKey_eq (hb.trans hvb), deleteKey_eq (ha.trans hva),
        enabled_of_eq (s.maxMemory_deleteKey a),
        enabled_of_eq (s.maxMemory_deleteKey b), deleteKey_eq hva,
        deleteKey_eq hvb]
      simp only [remove, addUsed, adjustKeyKindCount, Store.mk.injEq, heq_eq_eq, true_and, and_true]
      refine ⟨?_, Int.add_right_comm _ _ _, ?_⟩
      · exact update_erase_comm s.shards _ _ a b
      · by_cases hk : va.payload.kind = vb.payload.kind
        · rw [hk]
        · rw [update_of_ne hk, update_of_ne (Ne.symm hk), update_comm hk]

/-- `Delete` on the keys one after another: the store, and how many were removed. -/
def deleteEach (env : Env) : Store → List Bytes → Store × Nat
  | s, [] => (s, 0)
  | s, key :: keys =>
    let (s, removed) := s.delete key env
    let (s, count) := deleteEach env s keys
    (s, count + if removed then 1 else 0)

theorem delete_fst (s : Store) (key : Bytes) (env : Env) :
    (s.delete key env).1 = s.deleteKeyLocked key := by
  unfold Store.delete
  split
  · exact (deleteKey_of_none ‹_›).symm
  · rfl

/-- One deletion after another is what the loop does, on the keys as they are given. -/
theorem deleteEach_eq (env : Env) (s : Store) (keys removed : List Bytes) :
    (deleteEach env s keys).1 = keys.foldl deleteKeyLocked s ∧
      (deleteLoop (env.now 0) s keys removed).2.length =
        removed.length + (deleteEach env s keys).2 := by
  induction keys generalizing s removed with
  | nil => exact ⟨rfl, rfl⟩
  | cons key keys ih =>
    simp only [deleteEach, delete_fst, delete_answer, deleteLoop_cons, foldl_cons]
    refine ⟨(ih _ []).1, ?_⟩
    rw [(ih _ _).2]
    split
    · rw [length_append, length_singleton]
      omega
    · rfl

/-- **Deleting many keys does not depend on the shards.**  The listed keys are gone, each one that
was live is returned once, and the store and the number of removed keys are those of deleting the
keys one after another at the same time.  The keys are gone through in groups: each shard has its
own, and together they are the keys given. -/
theorem deleteMany_as_deletes (s : Store) (keys : List Bytes) (env : Env) :
    (∀ k, (s.deleteMany keys env).1.lookup k = if k ∈ keys then none else s.lookup k) ∧
      ((s.deleteMany keys env).2.Nodup ∧ ∀ k, k ∈ (s.deleteMany keys env).2 ↔
        k ∈ keys ∧ (liveValue (s.lookup k) (env.now 0)).isSome) ∧
      (s.deleteMany keys env).1 = (deleteEach env s keys).1 ∧
      (s.deleteMany keys env).2.length = (deleteEach env s keys).2 ∧
      s.groupKeysByShard keys = (finRange s.shardCount).flatMap
        (ShardKeyGroups.group s.shardIndex keys).keysForShard ∧
      (∀ i, (ShardKeyGroups.group s.shardIndex keys).keysForShard i =
        keys.filter fun key => s.shardIndex key = i) ∧
      ((finRange s.shardCount).flatMap
        (ShardKeyGroups.group s.shardIndex keys).keysForShard).Perm keys := by
  have hremoved := s.deleteMany_removed keys env
  have hperm := @ShardKeyGroups.groups_perm _ s.shardIndex keys
  refine ⟨(s.deleteMany_spec keys env).1, hremoved, ?_, ?_, s.groupKeysByShard_eq keys,
    ShardKeyGroups.keysForShard_eq keys, hperm⟩
  · rw [(deleteEach_eq env s keys []).1]
    match keys with
    | [] => rfl
    | [key] => exact s.delete_fst key env
    | first :: second :: rest =>
      change (deleteLoop (env.now 0) s (s.groupKeysByShard _) []).1 = _
      rw [deleteLoop_fst, groupKeysByShard_eq]
      exact hperm.foldl_eq' (fun a _ b _ t => t.deleteKey_comm a b) s
  · -- both loops remove the live keys among those listed, each once
    obtain ⟨more, hmore, hnodup, hmem⟩ := deleteLoop_removed (env.now 0) keys s []
    have hcount := (deleteEach_eq env s keys []).2
    rw [length_nil, Nat.zero_add] at hcount
    rw [← hcount, hmore, nil_append]
    refine ((perm_ext_iff_of_nodup hremoved.1 hnodup).mpr fun k => ?_).length_eq
    rw [hremoved.2, hmem]

end Store

end Stash
