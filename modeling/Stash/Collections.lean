import Mathlib.Data.Finset.Card
import Stash.StoreSimulation

/-!
# Collections under a key

A list, a set or a hash under a key, whatever its encoding, behaves as the abstract collection it
stands for: a double-ended queue, a finite set, a finite map.  A `Collection` says what a call leaves
and what it answers; `Collection.Follows` says that a store does the same, call by call, and that the
key is there exactly when the collection has an element.

A write may be refused because the memory limit leaves no room for it.  It leaves the collection as it
was then, and the calls go on.
-/

namespace Stash

open GoMap StoreOp

open List hiding set

/-! ## What a key keeps -/

open Classical in
/-- The key holds the collection, without a deadline; there is no key for an empty one. -/
def Store.Keeps (s : Store) (key : Bytes) (l : Logical) : Prop :=
  s.view key = if l.Empty then none else some ⟨l, 0⟩

/-- How a call ends: it answers and leaves another collection, or there is no room for it. -/
def Store.Ends (s : Store) (key : Bytes) (l l' : Logical)
    (P : Except StorageError Datum → Prop) (r : Store × Answer) : Prop :=
  P (r.2.map Prod.fst) ∧ r.1.Keeps key l' ∨
    s.maxMemoryEnabled = true ∧ r.2 = .error .memoryLimitExceeded ∧ r.1.Keeps key l

/-- An abstract collection, its calls, what they leave and what they answer. -/
structure Collection (α κ : Type) where
  logical : α → Logical
  op : κ → Bytes → StoreOp
  next : κ → α → α
  Answers : κ → α → Except StorageError Datum → Prop

section Following

variable {α κ : Type}

/-- **The store follows the collection**: before each call the key keeps it, and the call answers and
leaves what the collection says, or is refused for lack of memory. -/
def Collection.Follows (C : Collection α κ) (key : Bytes) : List (κ × Env) → Store → α → Prop
  | [], s, a => s.Keeps key (C.logical a)
  | (call, env) :: rest, s, a =>
    s.Keeps key (C.logical a) ∧
      (C.Answers call a (((C.op call key).run s env).2.map Prod.fst) ∧
          C.Follows key rest ((C.op call key).run s env).1 (C.next call a) ∨
        s.maxMemoryEnabled = true ∧
          ((C.op call key).run s env).2 = .error .memoryLimitExceeded ∧
          C.Follows key rest ((C.op call key).run s env).1 a)

theorem Collection.follows_of_step (C : Collection α κ) (key : Bytes)
    (hstep : ∀ {s : Store} {a : α} (call : κ) (env : Env),
      s.Keeps key (C.logical a) →
        s.Ends key (C.logical a) (C.logical (C.next call a)) (C.Answers call a)
          ((C.op call key).run s env))
    (calls : List (κ × Env)) {s : Store} {a : α} (h : s.Keeps key (C.logical a)) :
    C.Follows key calls s a := by
  induction calls generalizing s a with
  | nil => exact h
  | cons first rest ih =>
    obtain ⟨call, env⟩ := first
    refine ⟨h, ?_⟩
    rcases hstep call env h with ⟨hanswer, hnext⟩ | ⟨hlimit, hrefused, hsame⟩
    · exact .inl ⟨hanswer, ih hnext⟩
    · exact .inr ⟨hlimit, hrefused, ih hsame⟩

end Following

namespace Store

variable {s : Store} {key : Bytes} {l l' : Logical}

theorem keeps_of_some (h : s.view key = some ⟨l, 0⟩) : s.Keeps key l := by
  unfold Keeps
  rw [h, if_neg (view_not_empty h)]

theorem keeps_of_none (h : s.view key = none) (hempty : l.Empty) : s.Keeps key l := by
  unfold Keeps
  rw [h, if_pos hempty]

section

variable (h : s.Keeps key l)
include h

theorem Keeps.of_view {s' : Store} (hview : s'.view key = s.view key) : s'.Keeps key l := by
  unfold Keeps
  rw [hview]
  exact h

theorem Keeps.lookup :
    s.lookup key = none ∧ l.Empty ∨ ∃ payload stamp sound,
      s.lookup key = some ⟨payload, 0, stamp, sound⟩ ∧ payload.logical = l ∧ ¬l.Empty := by
  unfold Keeps view at h
  by_cases hempty : l.Empty
  · rw [if_pos hempty, Option.map_eq_none_iff] at h
    exact .inl ⟨h, hempty⟩
  · rw [if_neg hempty, Option.map_eq_some_iff] at h
    obtain ⟨⟨payload, expiresAt, stamp, sound⟩, hlookup, hentry⟩ := h
    obtain ⟨hlogical, hdeadline⟩ := Entry.mk.inj hentry
    change expiresAt = 0 at hdeadline
    subst hdeadline
    exact .inr ⟨payload, stamp, sound, hlookup, hlogical, hempty⟩

theorem Keeps.liveValue (now : Int) : liveValue (s.lookup key) now = s.lookup key := by
  rcases h.lookup with ⟨hnone, -⟩ | ⟨payload, stamp, sound, hsome, -, -⟩
  · rw [hnone]
    rfl
  · rw [hsome]
    rfl

theorem Keeps.of_fades {s' : Store} {now : Int}
    (hfades : Fades now s.view s'.view) : s'.Keeps key l := by
  rcases hfades key with hsame | ⟨-, e, he, hexpired⟩
  · exact h.of_view hsame
  · unfold Keeps at h
    rw [he] at h
    split at h
    · cases h
    · cases h
      rw [isExpired_zero] at hexpired
      cases hexpired

end

/-! ### Writing -/

theorem ensureMemory_error {delta : Int} {protectedKeys : List Bytes} {env : Env}
    {err : StorageError}
    (h : (s.ensureMemoryAvailableLocked delta protectedKeys env).2 = .error err) :
    err = .memoryLimitExceeded := by
  unfold ensureMemoryAvailableLocked evictUntilMemoryAtOrBelowLocked at h
  simp only at h
  split at h
  · cases h
  · split at h
    · exact (Except.error.inj h).symm
    · split at h
      · cases h
      · split at h
        · exact (Except.error.inj h).symm
        · split at h
          · cases h
          · exact (Except.error.inj h).symm

variable {ρ : Type} {P : Except StorageError Datum → Prop}

section

variable (h : s.Keeps key l)
include h

/-- **A write that decides to store a collection stores it**, or finds no room and leaves the key. -/
theorem Keeps.write (env : Env) (datum : ρ → Datum) (result : ρ)
    {fn : KeyWrite → WriteAction ρ}
    (hfn : ∃ value, fn ⟨s.lookup key, env.clock 0, s.maxMemoryEnabled⟩ = .commit value result ∧
      value.entry = ⟨l', 0⟩) (hP : P (.ok (datum result))) :
    s.Ends key l l' P (wrote datum (s.writeKey key env fn)) := by
  obtain ⟨value, hcommit, hentry⟩ := hfn
  have hview : ∀ {t : Store}, t.lookup key = some value → t.Keeps key l' := by
    intro t hlookup
    refine keeps_of_some ?_
    rw [view, hlookup, Option.map_some, hentry]
  have hprepared := s.prepare_snd key (env.clock 0).millis
  rw [h.liveValue] at hprepared
  have hbefore : (s.prepareExistingValueLocked key (env.clock 0).millis).1.lookup key =
      s.lookup key := by
    rw [lookup_prepare, if_pos rfl, h.liveValue]
  unfold wrote writeKey
  simp only [hprepared, hcommit, perform]
  generalize s.prepareExistingValueLocked key (env.clock 0).millis = prepared at hbefore ⊢
  unfold commit
  cases hlimit : s.maxMemoryEnabled with
  | false =>
    refine .inl ⟨hP, hview ?_⟩
    simp
  | true =>
    simp only [if_true]
    have hkept := @lookup_ensureMemory prepared.1 key [key] (env.after 2)
      (mem_singleton_self key) (by rw [hbefore, h.liveValue])
      (approximateValueObjectSize key value - sizeOfCurrent key (s.lookup key))
    have herror := @ensureMemory_error prepared.1
      (approximateValueObjectSize key value - sizeOfCurrent key (s.lookup key)) [key] (env.after 2)
    generalize prepared.1.ensureMemoryAvailableLocked
      (approximateValueObjectSize key value - sizeOfCurrent key (s.lookup key)) [key] (env.after 2) = r
      at hkept herror ⊢
    obtain ⟨t, err | evicted⟩ := r
    · obtain rfl := herror rfl
      refine .inr ⟨hlimit, rfl, h.of_view ?_⟩
      change (t.publishExpiredKeys.lookup key).map ValueObject.entry = _
      rw [lookup_publish, hkept, hbefore]
      rfl
    · refine .inl ⟨hP, hview ?_⟩
      simp

/-! ### Taking -/

/-- **Taking from a collection** answers and leaves what is left of it. -/
theorem Keeps.shrink (env : Env) (stamp : Int) {absent result : ρ}
    {fn : Payload → Except StorageError (Option (Payload × ρ))} (datum : ρ → Datum)
    (hnone : l.Empty → l'.Empty ∧ absent = result)
    (hsome : ∀ payload : Payload, payload.logical = l → ¬l.Empty →
      ∃ left, fn payload = .ok (some (left, result)) ∧ left.logical = l' ∧
        (l'.Empty ↔ ¬left.Sound)) (hP : P (.ok (datum result))) :
    s.Ends key l l' P (told datum (s.shrinkKey key env stamp absent fn)) := by
  refine .inl ?_
  rcases h.lookup with ⟨hlookup, hempty⟩ | ⟨payload, last, sound, hlookup, hlogical, hne⟩
  · obtain ⟨hempty', rfl⟩ := hnone hempty
    unfold told shrinkKey
    rw [hlookup]
    refine ⟨hP, keeps_of_none ?_ hempty'⟩
    change (s.lookup key).map _ = none
    rw [hlookup]
    rfl
  · obtain ⟨left, hfn, hleft, hsound⟩ := hsome payload hlogical hne
    unfold told shrinkKey
    simp only [hlookup, isExpired_zero, hfn, Bool.false_eq_true, if_false]
    by_cases hkeep : left.Sound
    · simp only [dif_pos hkeep]
      refine ⟨hP, keeps_of_some ?_⟩
      have hput : ∀ b : Bool, ∀ d, (if b then (s.put key ⟨left, 0, stamp, hkeep⟩).addUsed d
          else s.put key ⟨left, 0, stamp, hkeep⟩).lookup key = some ⟨left, 0, stamp, hkeep⟩ := by
        intro b d
        cases b <;> simp [lookup_put]
      change (Store.lookup _ key).map _ = _
      simp only [Prod.map, id, hput, Option.map_some, ValueObject.entry, hleft]
    · simp only [dif_neg hkeep]
      refine ⟨hP, keeps_of_none ?_ (hsound.mpr hkeep)⟩
      change (Store.lookup (deleteKeyWithSizeLocked _ _ _) key).map _ = none
      simp

/-! ### Reading -/

/-- **A read** answers by the value and leaves it. -/
theorem Keeps.read (env : Env) (datum : Option ρ → Datum)
    {fn : ValueObject → Except StorageError ρ} (hnone : l.Empty → P (.ok (datum none)))
    (hsome : ∀ value : ValueObject, value.payload.logical = l → ¬l.Empty →
      ∃ result, fn value = .ok result ∧ P (.ok (datum (some result)))) :
    s.Ends key l l P (told datum (s.readKey key env fn)) := by
  refine .inl ⟨?_, h.of_fades (s.readKey_fades key env fn)⟩
  unfold told
  rw [Prod.map_snd, readKey_answer, h.liveValue]
  rcases h.lookup with ⟨hlookup, hempty⟩ | ⟨payload, last, sound, hlookup, hlogical, hne⟩
  · rw [hlookup]
    exact hnone hempty
  · obtain ⟨result, hfn, hresult⟩ := hsome ⟨payload, 0, last, sound⟩ hlogical hne
    rw [hlookup, Option.elim_some, hfn]
    exact hresult

/-- A call with arguments that are refused changes nothing. -/
theorem Keeps.refused {err : StorageError}
    {P : Except StorageError Datum → Prop}
    (hP : P (.error err)) : s.Ends key l l P (s, .error err) :=
  .inl ⟨hP, h⟩

end

end Store

/-! ## Ranges -/

/-- A position, counted from the end if it is negative. -/
def resolvePosition (length : Nat) (position : Int) : Int :=
  if position < 0 then position + length else position

/-- **The inclusive range**: the elements whose positions lie between the two. -/
def inclusiveRange {α : Type} (items : List α) (start stop : Int) : List α :=
  (items.zipIdx.filter fun p =>
    resolvePosition items.length start ≤ p.2 ∧ (p.2 : Int) ≤ resolvePosition items.length stop).map
      Prod.fst

theorem filter_zipIdx {α : Type} (items : List α) (first last n : Nat) :
    ((items.zipIdx n).filter fun p => decide (first ≤ p.2) && decide (p.2 < last)).map Prod.fst =
      (items.take (last - n)).drop (first - n) := by
  induction items generalizing n with
  | nil => simp
  | cons item items ih =>
    have hrest := ih (n + 1)
    rw [zipIdx_cons, filter_cons]
    by_cases hlast : n < last
    · obtain ⟨k, hk⟩ : ∃ k, last - n = k + 1 := ⟨last - n - 1, by omega⟩
      have hk' : last - (n + 1) = k := by omega
      rw [hk'] at hrest
      rw [hk, take_succ_cons]
      by_cases hfirst : first ≤ n
      · have hzero : first - n = 0 := by omega
        have hzero' : first - (n + 1) = 0 := by omega
        rw [hzero', drop_zero] at hrest
        rw [if_pos (by simp [hfirst, hlast]), map_cons, hrest, hzero, drop_zero]
      · obtain ⟨j, hj⟩ : ∃ j, first - n = j + 1 := ⟨first - n - 1, by omega⟩
        have hj' : first - (n + 1) = j := by omega
        rw [if_neg (by simp [hfirst]), hrest, hj, hj', drop_succ_cons]
    · have hzero : last - n = 0 := by omega
      have hzero' : last - (n + 1) = 0 := by omega
      rw [hzero', take_zero, drop_nil] at hrest
      rw [if_neg (by simp [hlast]), hrest, hzero, take_zero, drop_nil]

/-- `normalizeListIndex` keeps the position, or goes one past the end that it lies beyond. -/
theorem normalizeListIndex_eq (length : Nat) (position : Int) :
    Store.normalizeListIndex length position =
      max (-1) (min (length : Int) (resolvePosition length position)) := by
  change (if resolvePosition length position < 0 then (-1 : Int)
    else if (length : Int) ≤ resolvePosition length position then (length : Int)
    else resolvePosition length position) = _
  split_ifs <;> omega

/-- The bounds that the program computes cut out the range. -/
theorem inclusiveRange_eq {α : Type} (items : List α) (start stop : Int) :
    inclusiveRange items start stop =
      match Store.normalizeListRange items.length start stop with
      | none => []
      | some (first, last) => (items.drop first).take (last + 1 - first) := by
  have hrange : ∀ first last : Nat, (∀ i : Nat, i < items.length →
      ((resolvePosition items.length start ≤ i ∧ (i : Int) ≤ resolvePosition items.length stop) ↔
        (first ≤ i ∧ i < last))) →
      inclusiveRange items start stop = (items.take last).drop first := by
    intro first last h
    have hfilter := filter_zipIdx items first last 0
    rw [Nat.sub_zero, Nat.sub_zero] at hfilter
    rw [← hfilter, inclusiveRange]
    refine congrArg (List.map Prod.fst) (filter_congr fun p hp => ?_)
    have hlt := snd_lt_of_mem_zipIdx hp
    rw [← Bool.decide_and]
    exact decide_eq_decide.mpr (h p.2 hlt)
  cases hnorm : Store.normalizeListRange items.length start stop with
  | none =>
    refine (hrange 0 0 fun i hi => ?_).trans (by simp)
    simp only [Store.normalizeListRange, normalizeListIndex_eq] at hnorm
    generalize resolvePosition items.length start = first at hnorm ⊢
    generalize resolvePosition items.length stop = last at hnorm ⊢
    split_ifs at hnorm <;> omega
  | some bounds =>
    obtain ⟨first, last⟩ := bounds
    refine (hrange first (last + 1) fun i hi => ?_).trans ?_
    · simp only [Store.normalizeListRange, normalizeListIndex_eq] at hnorm
      generalize resolvePosition items.length start = a at hnorm ⊢
      generalize resolvePosition items.length stop = b at hnorm ⊢
      split_ifs at hnorm
      cases hnorm
      omega
    · rw [drop_take]

/-! ## Lists -/

/-- The calls on a list. -/
inductive ListCall where
  | push (left : Bool) (values : List Bytes)
  | pop (left : Bool)
  | popN (left : Bool) (count : Int)
  | range (start stop : Int)

/-- A push puts the values at an end one after the other. -/
def pushEnd (left : Bool) (items values : List Bytes) : List Bytes :=
  values.foldl (fun items value => if left then value :: items else items ++ [value]) items

/-- A pop: the element at an end, if there is one, and the others. -/
def popEnd (left : Bool) (items : List Bytes) : Option Bytes × List Bytes :=
  if left then (items.head?, items.tail) else (items.getLast?, items.dropLast)

/-- Pops one after the other: what they take, in this order, and what is left. -/
def popEnds (left : Bool) : Nat → List Bytes → List Bytes × List Bytes
  | 0, items => ([], items)
  | n + 1, items =>
    let others := popEnds left n (popEnd left items).2
    ((popEnd left items).1.toList ++ others.1, others.2)

/-- **A list is a double-ended queue.** -/
def deque : Collection (List Bytes) ListCall where
  logical := .list
  op
    | .push left values, key => .write key (.push left values)
    | .pop left, key => .write key (.pop left)
    | .popN left count, key => .write key (.popN left count)
    | .range start stop, key => .read key (.listRange start stop)
  next
    | .push left values, items => pushEnd left items values
    | .pop left, items => (popEnd left items).2
    | .popN left count, items => (popEnds left (min count.toNat items.length) items).2
    | .range _ _, items => items
  Answers
    | .push left values, items, answer =>
      answer = if values = [] then .error .syntaxError
        else .ok (.count (pushEnd left items values).length)
    | .pop left, items, answer => answer = .ok (.item (popEnd left items).1)
    | .popN left count, items, answer =>
      answer = if count < 0 then .error .syntaxError
        else .ok (.items (if items = [] then none
          else some (popEnds left (min count.toNat items.length) items).1))
    | .range start stop, items, answer =>
      ∃ found, answer = .ok (.items found) ∧ found.getD [] = inclusiveRange items start stop

theorem pushEnd_eq (left : Bool) (items values : List Bytes) :
    pushEnd left items values = Store.pushItems left items values := by
  unfold pushEnd Store.pushItems
  cases left with
  | true =>
    induction values generalizing items with
    | nil => rfl
    | cons value values ih =>
      rw [foldl_cons, ih]
      simp
  | false =>
    induction values generalizing items with
    | nil => simp
    | cons value values ih =>
      rw [foldl_cons, ih]
      simp

/-- **Successive pops take a block from the end.** -/
theorem popEnds_eq (left : Bool) {n : Nat} {items : List Bytes} (h : n ≤ items.length) :
    popEnds left n items =
      if left then (items.take n, items.drop n)
      else ((items.drop (items.length - n)).reverse, items.take (items.length - n)) := by
  induction n generalizing items with
  | zero => cases left <;> simp [popEnds]
  | succ n ih =>
    cases left with
    | true =>
      rcases items with _ | ⟨item, items⟩
      · cases h
      · have hrest := ih (Nat.le_of_succ_le_succ h)
        simp only [if_true] at hrest
        simp [popEnds, popEnd, hrest]
    | false =>
      obtain ⟨front, item, rfl⟩ : ∃ front item, items = front ++ [item] := by
        refine ⟨items.dropLast, items.getLast (ne_nil_of_length_pos (by omega)), ?_⟩
        exact (dropLast_append_getLast _).symm
      rw [length_append, length_singleton] at h
      have hrest := @ih front (by omega)
      have hlen : front.length + 1 - (n + 1) = front.length - n := by omega
      have hle : front.length - n ≤ front.length := Nat.sub_le _ _
      simp only [Bool.false_eq_true, if_false] at hrest
      simp [popEnds, popEnd, hrest, hlen, drop_append_of_le_length hle,
        take_append_of_le_length hle]

/-- **Lists behave as double-ended queues.** -/
theorem list_follows_deque {s : Store} {key : Bytes} {items : List Bytes}
    (h : s.Keeps key (.list items)) (calls : List (ListCall × Env)) :
    deque.Follows key calls s items := by
  refine deque.follows_of_step key (fun {s items} call env h => ?_) calls h
  have hlist : ∀ payload : Payload, payload.logical = deque.logical items →
      payload = .list items := by
    intro payload hpayload
    cases payload <;> cases hpayload
    rfl
  have hsound : ∀ left : List Bytes, (Logical.list left).Empty ↔ ¬(Payload.list left).Sound :=
    fun left => not_not.symm
  rcases call with ⟨left, values⟩ | left | ⟨left, count⟩ | ⟨start, stop⟩
  · by_cases hvalues : values = []
    · subst hvalues
      exact h.refused (by simp [deque])
    · simp only [deque, run, Store.write, Store.pushList, dif_neg hvalues, if_neg hvalues,
        pushEnd_eq]
      refine h.write env _ (Store.pushItems left items values).length ?_ rfl
      rcases h.lookup with ⟨hnone, hempty⟩ | ⟨payload, stamp, sound, hsome, hlogical, -⟩
      · change items = [] at hempty
        subst hempty
        rw [hnone]
        exact ⟨_, rfl, rfl⟩
      · obtain rfl := hlist payload hlogical
        simp only [hsome, Store.pushAction, Store.ite_copyList]
        exact ⟨_, rfl, rfl⟩
  · refine h.shrink env _ _ (fun hempty => ?_) (fun payload hpayload hne => ?_) rfl
    · change items = [] at hempty
      subst hempty
      cases left <;> exact ⟨rfl, rfl⟩
    · obtain rfl := hlist payload hpayload
      rcases items with _ | ⟨item, items⟩
      · exact absurd rfl hne
      · cases left
        · exact ⟨_, rfl, rfl, hsound _⟩
        · exact ⟨_, rfl, rfl, hsound _⟩
  · by_cases hcount : count < 0
    · have hzero : count.toNat = 0 := by omega
      simp only [deque, run, Store.write, Store.popN, if_pos hcount, hzero, Nat.zero_min]
      exact h.refused rfl
    · simp only [deque, run, Store.write, Store.popN, if_neg hcount]
      have hpops := popEnds_eq left (Nat.min_le_right count.toNat items.length)
      refine h.shrink env _ _ (fun hempty => ?_) (fun payload hpayload hne => ?_) rfl
      · change items = [] at hempty
        subst hempty
        exact ⟨by simp [popEnds, Logical.Empty], by simp⟩
      · obtain rfl := hlist payload hpayload
        change items ≠ [] at hne
        rw [if_neg hne, hpops]
        obtain ⟨item, rest, rfl⟩ := exists_cons_of_ne_nil hne
        have htake : (item :: rest).take (min count.toNat (item :: rest).length) =
            (item :: rest).take count.toNat := take_eq_take_min.symm
        have hdrop : (item :: rest).drop (min count.toNat (item :: rest).length) =
            (item :: rest).drop count.toNat := by
          rcases Nat.le_total count.toNat (item :: rest).length with hle | hle
          · rw [Nat.min_eq_left hle]
          · rw [Nat.min_eq_right hle, drop_eq_nil_of_le hle, drop_length]
        have hsub : (item :: rest).length - min count.toNat (item :: rest).length =
            (item :: rest).length - count.toNat := by omega
        cases left
        · exact ⟨.list ((item :: rest).take ((item :: rest).length - count.toNat)),
            by simp only [Bool.false_eq_true, if_false, hsub]; rfl,
            by simp only [Bool.false_eq_true, if_false, hsub]; rfl,
            by simp only [Bool.false_eq_true, if_false, hsub]; exact hsound _⟩
        · exact ⟨.list ((item :: rest).drop count.toNat),
            by simp only [if_true, htake]; rfl,
            by simp only [if_true, hdrop]; rfl,
            by simp only [if_true, hdrop]; exact hsound _⟩
  · refine h.read env _ (fun hempty => ?_) fun value hvalue hne => ?_
    · change items = [] at hempty
      subst hempty
      exact ⟨none, rfl, rfl⟩
    · obtain hpayload := hlist value.payload hvalue
      rw [hpayload]
      refine ⟨_, ?_, some (inclusiveRange items start stop), rfl, rfl⟩
      rw [inclusiveRange_eq]
      simp only
      cases Store.normalizeListRange items.length start stop <;> rfl

/-- A call on a list that is not there. -/
theorem list_follows_deque_new :
    deque.Follows [] [(.push true [[1], [2]], .frozen (.ofMillis 1000 (by decide))),
      (.popN false 5, .frozen (.ofMillis 1000 (by decide)))] (.newStore fun _ => 0) [] :=
  list_follows_deque (Store.keeps_of_none rfl rfl) _

/-! ## Sets -/

/-- The calls on a set. -/
inductive SetCall where
  | sAdd (members : List Bytes)
  | sRem (members : List Bytes)
  | sIsMember (member : Bytes)
  | sMembers

/-- **A set is a finite set of byte strings.** -/
def finiteSet : Collection (Finset Bytes) SetCall where
  logical members := .set fun member => decide (member ∈ members)
  op
    | .sAdd members, key => .write key (.sAdd members)
    | .sRem members, key => .write key (.sRem members)
    | .sIsMember member, key => .read key (.sIsMember member)
    | .sMembers, key => .read key .sMembers
  next
    | .sAdd members, set => set ∪ members.toFinset
    | .sRem members, set => set \ members.toFinset
    | _, set => set
  Answers
    | .sAdd members, set, answer =>
      answer = if members = [] then .error .syntaxError
        else .ok (.count (members.toFinset \ set).card)
    | .sRem members, set, answer =>
      answer = if members = [] then .error .syntaxError
        else .ok (.count (members.toFinset ∩ set).card)
    | .sIsMember member, set, answer =>
      ∃ found, answer = .ok (.isMember found) ∧ found.getD false = decide (member ∈ set)
    | .sMembers, set, answer =>
      ∃ found, answer = .ok (.members found) ∧ (found.getD []).Nodup ∧
        ∀ member, member ∈ found.getD [] ↔ member ∈ set

namespace SetRep

variable {rep : SetRep} {set : Finset Bytes}
  (h : rep.contains = fun member => decide (member ∈ set))
include h

theorem mem_members_of_contains (order : MapOrder Bytes) (member : Bytes) :
    member ∈ rep.members order ↔ member ∈ set := by
  rw [SetRep.mem_members, h, decide_eq_true_eq]

theorem len_eq_card : rep.len = set.card := by
  have hmembers : (rep.members (MapOrder.id Bytes)).toFinset = set := by
    ext member
    rw [mem_toFinset]
    exact mem_members_of_contains h _ member
  rw [← rep.length_members (MapOrder.id Bytes), ← hmembers,
    toFinset_card_of_nodup (rep.nodup_members _)]

/-- **`setAdd` counts the members that are new.** -/
theorem add_count (members : List Bytes) : (rep.add members).2 = (members.toFinset \ set).card := by
  have hafter : (rep.add members).1.contains =
      fun member => decide (member ∈ set ∪ members.toFinset) := by
    rw [SetRep.contains_add, h]
    funext member
    simp
  have hlen := rep.len_add members
  have hcard := Finset.card_sdiff_add_card members.toFinset set
  rw [len_eq_card hafter, len_eq_card h] at hlen
  rw [Finset.union_comm] at hcard
  omega

/-- **`setRemove` counts the members that were there.** -/
theorem remove_count (members : List Bytes) :
    (rep.remove members).2 = (members.toFinset ∩ set).card := by
  have hafter : (rep.remove members).1.contains =
      fun member => decide (member ∈ set \ members.toFinset) := by
    rw [SetRep.contains_remove, h]
    funext member
    simp [Bool.decide_and, decide_not]
  have hlen := rep.len_remove members
  have hcard := Finset.card_sdiff_add_card_inter set members.toFinset
  rw [len_eq_card hafter, len_eq_card h] at hlen
  rw [Finset.inter_comm] at hcard
  omega

end SetRep

/-- **Sets behave as finite sets of byte strings.** -/
theorem set_follows_finiteSet {s : Store} {key : Bytes} {set : Finset Bytes}
    (h : s.Keeps key (finiteSet.logical set)) (calls : List (SetCall × Env)) :
    finiteSet.Follows key calls s set := by
  refine finiteSet.follows_of_step key (fun {s set} call env h => ?_) calls h
  have hrep : ∀ payload : Payload, payload.logical = finiteSet.logical set →
      ∃ rep : SetRep, payload = .set rep ∧ rep.contains = fun member => decide (member ∈ set) := by
    intro payload hpayload
    cases payload with
    | set rep => exact ⟨rep, rfl, Logical.set.inj hpayload⟩
    | _ => cases hpayload
  have hempty : (finiteSet.logical set).Empty → set = ∅ := by
    intro hnone
    refine Finset.eq_empty_of_forall_notMem fun member hmember => ?_
    have hfalse := hnone member
    simp [hmember] at hfalse
  rcases call with members | members | member | _
  · by_cases hmembers : members = []
    · subst hmembers
      have hsame : set ∪ ([] : List Bytes).toFinset = set := by simp
      simp only [finiteSet, run, Store.write, Store.sAdd, hsame]
      exact h.refused rfl
    · simp only [finiteSet, run, Store.write, Store.sAdd, dif_neg hmembers,
        if_neg hmembers]
      refine h.write env _ (members.toFinset \ set).card ?_ rfl
      rcases h.lookup with ⟨hnone, hnothing⟩ | ⟨payload, stamp, sound, hsome, hlogical, -⟩
      · obtain rfl := hempty hnothing
        have hnew : (SetRep.ofMembers members).contains =
            fun member => decide (member ∈ ∅ ∪ members.toFinset) := by
          rw [SetRep.contains_ofMembers]
          simp
        have hlen := SetRep.len_eq_card hnew
        rw [Finset.empty_union] at hlen
        rw [hnone, Finset.sdiff_empty, ← hlen]
        exact ⟨_, rfl, congrArg (fun c => Entry.mk (.set c) 0) hnew⟩
      · obtain ⟨rep, rfl, hcontains⟩ := hrep payload hlogical
        rw [hsome]
        have htarget : (if s.maxMemoryEnabled then rep.clone (env.order 0) else rep).contains =
            fun member => decide (member ∈ set) := by
          rw [Store.apply_ite_copy (rep.contains_clone _), hcontains]
        rw [← SetRep.add_count htarget members]
        refine ⟨_, rfl, congrArg (fun c => Entry.mk (.set c) 0) ?_⟩
        rw [SetRep.contains_add, htarget]
        funext member
        simp
  · by_cases hmembers : members = []
    · subst hmembers
      have hsame : set \ ([] : List Bytes).toFinset = set := by simp
      simp only [finiteSet, run, Store.write, Store.sRem, hsame]
      exact h.refused rfl
    · simp only [finiteSet, run, Store.write, Store.sRem, if_neg hmembers]
      refine h.shrink env _ _ (fun hnothing => ?_) (fun payload hpayload _ => ?_) rfl
      · obtain rfl := hempty hnothing
        exact ⟨by simp [Logical.Empty], by simp⟩
      · obtain ⟨rep, rfl, hcontains⟩ := hrep payload hpayload
        have hafter : (rep.remove members).1.contains =
            fun member => decide (member ∈ set \ members.toFinset) := by
          rw [SetRep.contains_remove, hcontains]
          funext member
          simp [Bool.decide_and, decide_not]
        refine ⟨.set (rep.remove members).1, ?_, congrArg Logical.set hafter, ?_⟩
        · rw [← SetRep.remove_count hcontains members]
          rfl
        · have hlen := (rep.remove members).1.len_eq_zero_iff
          rw [hafter] at hlen
          exact hlen.symm.trans not_not.symm
  · refine h.read env _ (fun hnothing => ?_) fun value hvalue _ => ?_
    · obtain rfl := hempty hnothing
      exact ⟨none, rfl, by simp⟩
    · obtain ⟨rep, hpayload, hcontains⟩ := hrep value.payload hvalue
      rw [hpayload]
      exact ⟨rep.contains member, rfl, some (rep.contains member), rfl, congrFun hcontains member⟩
  · refine h.read env _ (fun hnothing => ?_) fun value hvalue _ => ?_
    · obtain rfl := hempty hnothing
      exact ⟨none, rfl, nodup_nil, by simp⟩
    · obtain ⟨rep, hpayload, hcontains⟩ := hrep value.payload hvalue
      rw [hpayload]
      exact ⟨_, rfl, _, rfl, rep.nodup_members _,
        SetRep.mem_members_of_contains hcontains (env.order 0)⟩

theorem set_follows_finiteSet_new :
    finiteSet.Follows [] [(.sAdd [[48, 48, 55], [55], [55]], .frozen (.ofMillis 1000 (by decide))),
      (.sMembers, .frozen (.ofMillis 1000 (by decide)))] (.newStore fun _ => 0) ∅ :=
  set_follows_finiteSet (Store.keeps_of_none rfl fun _ => rfl) _

/-! ## Hashes -/

/-- The calls on a hash. -/
inductive HashCall where
  | hSet (pairs : List HashFieldValue)
  | hDel (fields : List Bytes)
  | hGet (field : Bytes)
  | hGetAll

/-- **A hash is a finite map from fields to values.** -/
def finiteMap : Collection (Bytes → Option Bytes) HashCall where
  logical := .hash
  op
    | .hSet pairs, key => .write key (.hSet pairs)
    | .hDel fields, key => .write key (.hDel fields)
    | .hGet field, key => .read key (.hGet field)
    | .hGetAll, key => .read key .hGetAll
  next
    | .hSet pairs, map => assign map pairs
    | .hDel fields, map => unassign map fields
    | _, map => map
  Answers
    | .hSet pairs, map, answer =>
      answer = if pairs = [] then .error .syntaxError
        else .ok (.count ((pairs.map Prod.fst).toFinset.filter fun field => map field = none).card)
    | .hDel fields, map, answer =>
      answer = if fields = [] then .error .syntaxError
        else .ok (.count (fields.toFinset.filter fun field => map field ≠ none).card)
    | .hGet field, map, answer =>
      ∃ found, answer = .ok (.field found) ∧ found.join = map field
    | .hGetAll, map, answer =>
      ∃ found, answer = .ok (.fields found) ∧ ((found.getD []).map Prod.fst).Nodup ∧
        ∀ field value, (field, value) ∈ found.getD [] ↔ map field = some value

namespace HashRep

variable (rep : HashRep)

theorem mem_entries_iff (order : MapOrder Bytes) {field value : Bytes} :
    (field, value) ∈ rep.entries order ↔ rep.get field = some value := by
  rw [← rep.assign_entries order, assign_eq_some_iff (rep.nodup_entries order)]

/-- The fields of a hash. -/
def fieldSet : Finset Bytes :=
  ((rep.entries (MapOrder.id Bytes)).map Prod.fst).toFinset

theorem mem_fieldSet {field : Bytes} : field ∈ rep.fieldSet ↔ rep.get field ≠ none := by
  rw [fieldSet, mem_toFinset, mem_map, Option.ne_none_iff_exists']
  constructor
  · rintro ⟨⟨field, value⟩, hmem, rfl⟩
    exact ⟨value, (rep.mem_entries_iff _).mp hmem⟩
  · rintro ⟨value, hget⟩
    exact ⟨(field, value), (rep.mem_entries_iff _).mpr hget, rfl⟩

theorem card_fieldSet : rep.fieldSet.card = rep.len := by
  rw [fieldSet, toFinset_card_of_nodup (rep.nodup_entries _), length_map,
    rep.length_entries]

/-- **`hashSet` counts the fields that are new.** -/
theorem set_count (pairs : List HashFieldValue) :
    (rep.set pairs).2 =
      ((pairs.map Prod.fst).toFinset.filter fun field => rep.get field = none).card := by
  have hunion : (rep.set pairs).1.fieldSet = rep.fieldSet ∪ (pairs.map Prod.fst).toFinset := by
    ext field
    rw [Finset.mem_union, mem_fieldSet, mem_fieldSet, HashRep.get_set, mem_toFinset,
      ← Option.isSome_iff_ne_none, ← Option.isSome_iff_ne_none, isSome_assign_iff]
  have hnew : ((pairs.map Prod.fst).toFinset.filter fun field => rep.get field = none) =
      (pairs.map Prod.fst).toFinset \ rep.fieldSet := by
    ext field
    rw [Finset.mem_filter, Finset.mem_sdiff, mem_fieldSet, not_not]
  have hlen := rep.len_set pairs
  have hcard := Finset.card_sdiff_add_card (pairs.map Prod.fst).toFinset rep.fieldSet
  rw [← card_fieldSet, ← card_fieldSet, hunion] at hlen
  rw [Finset.union_comm] at hcard
  rw [hnew]
  omega

/-- **`hashDel` counts the fields that were there.** -/
theorem del_count (fields : List Bytes) :
    (rep.del fields).2 = (fields.toFinset.filter fun field => rep.get field ≠ none).card := by
  have hdiff : (rep.del fields).1.fieldSet = rep.fieldSet \ fields.toFinset := by
    ext field
    rw [Finset.mem_sdiff, mem_fieldSet, mem_fieldSet, HashRep.get_del, mem_toFinset,
      unassign_apply]
    by_cases hmem : field ∈ fields <;> simp [hmem]
  have hgone : (fields.toFinset.filter fun field => rep.get field ≠ none) =
      rep.fieldSet ∩ fields.toFinset := by
    ext field
    rw [Finset.mem_filter, Finset.mem_inter, mem_fieldSet, and_comm]
  have hlen := rep.len_del fields
  have hcard := Finset.card_sdiff_add_card_inter rep.fieldSet fields.toFinset
  rw [← card_fieldSet, ← card_fieldSet, hdiff] at hlen
  rw [hgone]
  omega

end HashRep

/-- **Hashes behave as finite maps.** -/
theorem hash_follows_finiteMap {s : Store} {key : Bytes} {map : Bytes → Option Bytes}
    (h : s.Keeps key (.hash map)) (calls : List (HashCall × Env)) :
    finiteMap.Follows key calls s map := by
  refine finiteMap.follows_of_step key (fun {s map} call env h => ?_) calls h
  have hrep : ∀ payload : Payload, payload.logical = finiteMap.logical map →
      ∃ rep : HashRep, payload = .hash rep ∧ rep.get = map := by
    intro payload hpayload
    cases payload with
    | hash rep => exact ⟨rep, rfl, Logical.hash.inj hpayload⟩
    | _ => cases hpayload
  have hempty : (finiteMap.logical map).Empty → map = fun _ => none := funext
  rcases call with pairs | fields | field | _
  · by_cases hpairs : pairs = []
    · subst hpairs
      exact h.refused rfl
    · simp only [finiteMap, run, Store.write, Store.hSet, dif_neg hpairs, if_neg hpairs]
      refine h.write env _ _ ?_ rfl
      rcases h.lookup with ⟨hnone, hnothing⟩ | ⟨payload, stamp, sound, hsome, hlogical, -⟩
      · obtain rfl := hempty hnothing
        rw [hnone]
        have hget := HashRep.get_ofPairs (env.order 0) pairs
        have hfields : (HashRep.ofPairs (env.order 0) pairs).fieldSet =
            (pairs.map Prod.fst).toFinset := by
          ext field
          rw [HashRep.mem_fieldSet, hget, ← Option.isSome_iff_ne_none, isSome_assign_iff,
            mem_toFinset]
          simp
        rw [Finset.filter_true_of_mem fun _ _ => rfl, ← hfields, HashRep.card_fieldSet]
        exact ⟨_, rfl, congrArg (fun c => Entry.mk (.hash c) 0) hget⟩
      · obtain ⟨rep, rfl, rfl⟩ := hrep payload hlogical
        rw [hsome]
        have htarget := Store.apply_ite_copy (rep.get_clone (env.order 0)) s.maxMemoryEnabled
        rw [← htarget, ← HashRep.set_count]
        exact ⟨_, rfl, congrArg (fun c => Entry.mk (.hash c) 0) (HashRep.get_set _ pairs)⟩
  · by_cases hfields : fields = []
    · subst hfields
      exact h.refused rfl
    · simp only [finiteMap, run, Store.write, Store.hDel, if_neg hfields]
      refine h.shrink env _ _ (fun hnothing => ?_) (fun payload hpayload _ => ?_) rfl
      · obtain rfl := hempty hnothing
        exact ⟨fun field => by rw [unassign_apply]; simp, by simp⟩
      · obtain ⟨rep, rfl, rfl⟩ := hrep payload hpayload
        have hafter := rep.get_del fields
        refine ⟨.hash (rep.del fields).1, ?_, congrArg Logical.hash hafter, ?_⟩
        · rw [← HashRep.del_count]
          rfl
        · have hlen := (rep.del fields).1.len_eq_zero_iff
          rw [hafter] at hlen
          exact hlen.symm.trans not_not.symm
  · refine h.read env _ (fun hnothing => ?_) fun value hvalue _ => ?_
    · obtain rfl := hempty hnothing
      exact ⟨none, rfl, rfl⟩
    · obtain ⟨rep, hpayload, rfl⟩ := hrep value.payload hvalue
      rw [hpayload]
      exact ⟨rep.get field, rfl, some (rep.get field), rfl, rfl⟩
  · refine h.read env _ (fun hnothing => ?_) fun value hvalue _ => ?_
    · obtain rfl := hempty hnothing
      exact ⟨none, rfl, nodup_nil, by simp⟩
    · obtain ⟨rep, hpayload, rfl⟩ := hrep value.payload hvalue
      rw [hpayload]
      exact ⟨_, rfl, _, rfl, rep.nodup_entries _, fun _ _ => rep.mem_entries_iff _⟩

theorem hash_follows_finiteMap_new :
    finiteMap.Follows [] [(.hSet [([1], [2]), ([1], [])], .frozen (.ofMillis 1000 (by decide))),
      (.hGetAll, .frozen (.ofMillis 1000 (by decide)))] (.newStore fun _ => 0) fun _ => none :=
  hash_follows_finiteMap (Store.keeps_of_none rfl fun _ => rfl) _

end Stash
