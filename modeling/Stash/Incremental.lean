import Mathlib.Data.List.Basic

/-!
# Readers of a growing input

A reader takes a value from the front of its input.  What it answers on a part of the input need not
be final: some errors only say that more is needed.  A reader *extends* when everything else it
answers stays as it is when more input arrives, and a value is what its own part of the input gives.
Then a part of a complete item always asks for more, and an input can be cut into complete items and
a remainder in one way only.  An input is *stuck* when the reader asks for more in vain.

A reader that counts what it takes is *steady* in the same sense, and what it reads of a growing
input does not depend on how the input arrives (`Drains.append`).
-/

namespace Incremental

open List

/-- Take a value from the front of a list, or fail. -/
abbrev Reader (ε β α : Type) := List β → Except ε (α × List β)

variable {ε β α γ : Type} {retry : ε → Bool}

/-! ## Results -/

variable {x : Except ε α}

/-- Peel one step off a successful computation. -/
theorem bind_ok {f : α → Except ε β} {b : β}
    (h : (x >>= f) = .ok b) : ∃ a, x = .ok a ∧ f a = .ok b := by
  cases x with
  | error err => cases h
  | ok a => exact ⟨a, rfl, h⟩

theorem map_ok {f : α → β} {b : β} (h : x.map f = .ok b) : ∃ a, x = .ok a ∧ f a = b := by
  cases x with
  | error err => cases h
  | ok a => exact ⟨a, rfl, Except.ok.inj h⟩

theorem bind_error {f : α → Except ε β} {err : ε}
    (h : (x >>= f) = .error err) : x = .error err ∨ ∃ a, x = .ok a ∧ f a = .error err := by
  cases x with
  | error err' => exact .inl (congrArg Except.error (Except.error.inj h))
  | ok a => exact .inr ⟨a, rfl, h⟩

theorem mapError_ok {ε' : Type} {f : ε → ε'} {a : α} (h : x.mapError f = .ok a) : x = .ok a := by
  cases x with
  | error err => cases h
  | ok a' => exact congrArg Except.ok (Except.ok.inj h)

theorem mapError_error {ε' : Type} {r : Except ε α} {f : ε → ε'} {err : ε'}
    (h : r.mapError f = .error err) : ∃ err', r = .error err' ∧ f err' = err := by
  cases r with
  | error err' => exact ⟨err', rfl, Except.error.inj h⟩
  | ok a => cases h

/-! ## Readers -/

/-- The answer is an error that more input does not cure. -/
def Fatal (retry : ε → Bool) (answer : Except ε α) : Prop :=
  ∃ err, answer = .error err ∧ retry err = false

/-- Values and fatal errors stay when more input arrives, and a value needs no more than its own part
of the input. -/
structure Extends (retry : ε → Bool) (f : Reader ε β α) : Prop where
  ok : ∀ {x : List β} {a : α} {rest : List β}, f x = .ok (a, rest) →
    ∀ y, f (x ++ y) = .ok (a, rest ++ y)
  fatal : ∀ {x : List β}, Fatal retry (f x) → ∀ y, Fatal retry (f (x ++ y))
  split : ∀ {x : List β} {a : α} {rest : List β}, f x = .ok (a, rest) →
    ∃ item, x = item ++ rest ∧ f item = .ok (a, [])

theorem extends_ok (a : α) : Extends retry fun x : List β => .ok (a, x) where
  ok h y := by
    cases h
    rfl
  fatal := by
    rintro x ⟨err, h, -⟩
    cases h
  split h := by
    cases h
    exact ⟨[], rfl, rfl⟩

theorem extends_error (err : ε) : @Extends ε β α retry fun _ => .error err where
  ok h := by cases h
  fatal h _ := h
  split h := by cases h

theorem Extends.bind {f : Reader ε β α} {g : α → Reader ε β γ} (hf : Extends retry f)
    (hg : ∀ a, Extends retry (g a)) : Extends retry fun x => f x >>= fun p => g p.1 p.2 where
  ok {x b rest} h y := by
    obtain ⟨p, hfirst, hsecond⟩ := bind_ok h
    rw [hf.ok hfirst y]
    exact (hg p.1).ok hsecond y
  fatal {x} h y := by
    obtain ⟨err, herr, hretry⟩ := h
    rcases bind_error herr with hfirst | ⟨p, hfirst, hsecond⟩
    · obtain ⟨err', hmore, hretry'⟩ := hf.fatal ⟨err, hfirst, hretry⟩ y
      exact ⟨err', by rw [hmore]; rfl, hretry'⟩
    · rw [hf.ok hfirst y]
      exact (hg p.1).fatal ⟨err, hsecond, hretry⟩ y
  split {x b rest} h := by
    obtain ⟨p, hfirst, hsecond⟩ := bind_ok h
    obtain ⟨first, rfl, hfirst'⟩ := hf.split hfirst
    obtain ⟨second, hrest, hsecond'⟩ := (hg p.1).split hsecond
    refine ⟨first ++ second, by rw [hrest, append_assoc], ?_⟩
    rw [hf.ok hfirst' second]
    exact hsecond'

theorem Extends.mapError {f : Reader ε β α} (hf : Extends retry f) {wrap : ε → ε}
    (hwrap : ∀ err, retry (wrap err) = retry err) :
    Extends retry fun x => (f x).mapError wrap where
  ok {x a rest} h y := by
    rw [hf.ok (mapError_ok h) y]
    rfl
  fatal {x} h y := by
    obtain ⟨err, herr, hretry⟩ := h
    obtain ⟨err', hfirst, rfl⟩ := mapError_error herr
    rw [hwrap] at hretry
    obtain ⟨err'', hmore, hretry'⟩ := hf.fatal ⟨err', hfirst, hretry⟩ y
    exact ⟨wrap err'', by rw [hmore]; rfl, by rw [hwrap, hretry']⟩
  split {x a rest} h := by
    obtain ⟨item, hitem, hitem'⟩ := hf.split (mapError_ok h)
    exact ⟨item, hitem, by rw [hitem']; rfl⟩

/-! ## Complete items -/

section Items

variable {f : Reader ε β α}

/-- The input is one item and nothing else. -/
def Complete (f : Reader ε β α) (x : List β) : Prop :=
  ∃ a, f x = .ok (a, [])

/-- The input is a part of an item, and not all of it. -/
def Unfinished (f : Reader ε β α) (x : List β) : Prop :=
  ∃ y, y ≠ [] ∧ Complete f (x ++ y)

/-- **A part of an item asks for more.** -/
theorem Extends.unfinished (hf : Extends retry f) {x : List β} (h : Unfinished f x) :
    ∃ err, f x = .error err ∧ retry err = true := by
  obtain ⟨y, hy, a, hcomplete⟩ := h
  cases hx : f x with
  | ok p =>
    have hmore := hf.ok hx y
    rw [hcomplete] at hmore
    have hrest : [] = p.2 ++ y := congrArg Prod.snd (Except.ok.inj hmore)
    exact absurd (append_eq_nil_iff.mp hrest.symm).2 hy
  | error err =>
    refine ⟨err, rfl, ?_⟩
    by_contra hretry
    obtain ⟨err', hmore, -⟩ := hf.fatal ⟨err, hx, Bool.eq_false_iff.mpr hretry⟩ y
    rw [hcomplete] at hmore
    cases hmore

theorem Extends.complete_append (hf : Extends retry f) {x : List β} (h : Complete f x)
    (y : List β) : ∃ a, f (x ++ y) = .ok (a, y) := by
  obtain ⟨a, ha⟩ := h
  exact ⟨a, hf.ok ha y⟩

/-- **An input is cut into items and a remainder that is no item in one way only.** -/
theorem Extends.remainder_unique (hf : Extends retry f) {items items' : List (List β)}
    {t t' : List β} (hitems : ∀ item ∈ items, Complete f item)
    (hitems' : ∀ item ∈ items', Complete f item) (ht : ∃ err, f t = .error err)
    (ht' : ∃ err, f t' = .error err) (h : items.flatten ++ t = items'.flatten ++ t') : t = t' := by
  induction items generalizing items' with
  | nil =>
    cases items' with
    | nil => exact h
    | cons item' items' =>
      obtain ⟨err, herr⟩ := ht
      obtain ⟨a, ha⟩ := hf.complete_append (hitems' item' mem_cons_self)
        (items'.flatten ++ t')
      rw [flatten_nil, nil_append, flatten_cons, append_assoc] at h
      rw [h, ha] at herr
      cases herr
  | cons item items ih =>
    obtain ⟨a, ha⟩ := hf.complete_append (hitems item mem_cons_self) (items.flatten ++ t)
    rw [flatten_cons, append_assoc] at h
    cases items' with
    | nil =>
      obtain ⟨err, herr⟩ := ht'
      rw [flatten_nil, nil_append] at h
      rw [← h, ha] at herr
      cases herr
    | cons item' items' =>
      obtain ⟨a', ha'⟩ := hf.complete_append (hitems' item' mem_cons_self)
        (items'.flatten ++ t')
      rw [flatten_cons, append_assoc] at h
      rw [h, ha'] at ha
      exact ih (fun i hi => hitems i (mem_cons_of_mem _ hi))
        (fun i hi => hitems' i (mem_cons_of_mem _ hi))
        (congrArg Prod.snd (Except.ok.inj ha)).symm

end Items

/-! ## Inputs that cannot be completed -/

/-- The reader asks for more, but nothing that may follow gives a value. -/
structure Stuck (retry : ε → Bool) (f : Reader ε β α) (x : List β) : Prop where
  asks : ∃ err, f x = .error err ∧ retry err = true
  never : ∀ y p, f (x ++ y) ≠ .ok p

variable {f : Reader ε β α} {x : List β}

theorem Stuck.not_unfinished (h : Stuck retry f x) : ¬Unfinished f x := by
  rintro ⟨y, -, a, hcomplete⟩
  exact h.never y _ hcomplete

theorem Stuck.mapError (h : Stuck retry f x) {wrap : ε → ε}
    (hwrap : ∀ err, retry (wrap err) = retry err) :
    Stuck retry (fun x => (f x).mapError wrap) x := by
  obtain ⟨err, herr, hretry⟩ := h.asks
  refine ⟨⟨wrap err, by rw [herr]; rfl, by rw [hwrap, hretry]⟩, fun y p hp => ?_⟩
  exact h.never y p (mapError_ok hp)

theorem Stuck.bind (h : Stuck retry f x)
    (g : α → Reader ε β γ) : Stuck retry (fun x => f x >>= fun p => g p.1 p.2) x := by
  obtain ⟨err, herr, hretry⟩ := h.asks
  refine ⟨⟨err, by rw [herr]; rfl, hretry⟩, fun y p hp => ?_⟩
  obtain ⟨q, hmore, -⟩ := bind_ok hp
  exact h.never y q hmore

theorem Stuck.after {f : Reader ε β α} (hf : Extends retry f) {x rest : List β} {a : α}
    (hx : f x = .ok (a, rest)) {g : α → Reader ε β γ} (h : Stuck retry (g a) rest) :
    Stuck retry (fun x => f x >>= fun p => g p.1 p.2) x := by
  obtain ⟨err, herr, hretry⟩ := h.asks
  refine ⟨⟨err, by rw [hx]; exact herr, hretry⟩, fun y p hp => ?_⟩
  rw [hf.ok hx y] at hp
  exact h.never y p hp

/-! ## Readers that count

A reader may say how many elements it took instead of what is left, and read from an offset: then a
later part is given the whole input again.  `Steady` is said of a reader on the inputs that begin with
a given front, the part that is behind the offset already. -/

/-- Take a value from a list, and say where it ends. -/
abbrev Counter (ε β α : Type) := List β → Except ε (α × Nat)

section Counters

variable (retry) (need : ε → Option Nat) (limit : Nat)

/-- **What the reader answers stays when more input arrives**: a value depends on nothing behind its
end, an error that does not ask for more stays what it is, and an error that says how much is needed
stays until that much is there. -/
structure Steady (f : Counter ε β α) (front : List β) : Prop where
  ok : ∀ {x : List β} {a : α} {n : Nat}, f (front ++ x) = .ok (a, n) →
    ∃ item rest, x = item ++ rest ∧ n = (front ++ item).length ∧
      ∀ y, f (front ++ (item ++ y)) = .ok (a, n)
  fatal : ∀ {x : List β} {err : ε}, f (front ++ x) = .error err → retry err = false →
    ∀ y, f (front ++ (x ++ y)) = .error err
  hint : ∀ {x : List β} {err : ε} {total : Nat}, f (front ++ x) = .error err →
    need err = some total → (front ++ x).length < limit →
      (front ++ x).length < total ∧ total < limit ∧
        ∀ y, (front ++ (x ++ y)).length < total → f (front ++ (x ++ y)) = .error err

variable {retry need limit} {f : Counter ε β α} {front : List β}

theorem steady_ok (a : α) (front : List β) :
    @Steady ε β α retry need limit (fun _ => .ok (a, front.length)) front where
  ok {x b n} h := by
    cases h
    exact ⟨[], x, rfl, by rw [append_nil], fun _ => rfl⟩
  fatal h := by cases h
  hint h := by cases h

theorem steady_error {err : ε} (hneed : need err = none) (front : List β) :
    @Steady ε β α retry need limit (fun _ => .error err) front where
  ok h := by cases h
  fatal h _ _ := h
  hint h htotal := by
    cases h
    rw [hneed] at htotal
    cases htotal

section

variable (hf : Steady retry need limit f front)
include hf

/-- What was read, and that it is read from its own part of the input. -/
theorem Steady.item {p : α × Nat} (h : f (front ++ x) = .ok p) :
    ∃ item rest, x = item ++ rest ∧ p.2 = (front ++ item).length ∧
      f (front ++ item) = .ok (p.1, (front ++ item).length) ∧ ∀ y, f (front ++ (item ++ y)) = .ok p := by
  obtain ⟨item, rest, rfl, hn, hall⟩ := hf.ok h
  have hitem := hall []
  rw [append_nil, hn] at hitem
  exact ⟨item, rest, rfl, hn, hitem, hall⟩

/-- **One reader after the other**, on the same input: the second begins where the first one
ended. -/
theorem Steady.bind {g : α → Nat → Counter ε β γ}
    (hg : ∀ item a, f (front ++ item) = .ok (a, (front ++ item).length) →
      Steady retry need limit (g a (front ++ item).length) (front ++ item)) :
    Steady retry need limit (fun x => f x >>= fun p => g p.1 p.2 x) front where
  ok {x b n} h := by
    obtain ⟨p, hp, hsecond⟩ := bind_ok h
    obtain ⟨item, rest, rfl, hn, hitem, hall⟩ := hf.item hp
    rw [hn, ← append_assoc] at hsecond
    obtain ⟨item', rest', rfl, hn', hall'⟩ := (hg item p.1 hitem).ok hsecond
    refine ⟨item ++ item', rest', by rw [append_assoc], ?_, fun y => ?_⟩
    · rw [hn', append_assoc]
    · have hfirst := hall (item' ++ y)
      rw [← append_assoc item item' y] at hfirst
      rw [hfirst]
      have hrest := hall' y
      rw [append_assoc, ← append_assoc item item' y, ← hn] at hrest
      exact hrest
  fatal {x err} h hretry y := by
    rcases bind_error h with hfirst | ⟨p, hfirst, hsecond⟩
    · rw [hf.fatal hfirst hretry y]
      rfl
    · obtain ⟨item, rest, rfl, hn, hitem, hall⟩ := hf.item hfirst
      rw [hn, ← append_assoc] at hsecond
      have hmore := (hg item p.1 hitem).fatal hsecond hretry y
      rw [append_assoc item rest y, hall (rest ++ y)]
      rw [append_assoc, ← hn] at hmore
      exact hmore
  hint {x err total} h htotal hlimit := by
    rcases bind_error h with hfirst | ⟨p, hfirst, hsecond⟩
    · obtain ⟨hlt, htop, hmore⟩ := hf.hint hfirst htotal hlimit
      refine ⟨hlt, htop, fun y hy => ?_⟩
      rw [hmore y hy]
      rfl
    · obtain ⟨item, rest, rfl, hn, hitem, hall⟩ := hf.item hfirst
      rw [hn, ← append_assoc] at hsecond
      rw [← append_assoc] at hlimit ⊢
      obtain ⟨hlt, htop, hmore⟩ := (hg item p.1 hitem).hint hsecond htotal hlimit
      refine ⟨hlt, htop, fun y hy => ?_⟩
      rw [append_assoc item rest y] at hy ⊢
      rw [hall (rest ++ y)]
      have hrest := hmore y (by rw [append_assoc]; exact hy)
      rw [append_assoc, ← hn] at hrest
      exact hrest

theorem Steady.congr {g : Counter ε β α}
    (h : ∀ x, g (front ++ x) = f (front ++ x)) : Steady retry need limit g front where
  ok {x a n} hx := by
    obtain ⟨item, rest, hsplit, hn, hall⟩ := hf.ok ((h x).symm.trans hx)
    exact ⟨item, rest, hsplit, hn, fun y => (h _).trans (hall y)⟩
  fatal hx hretry y := (h _).trans (hf.fatal ((h _).symm.trans hx) hretry y)
  hint hx htotal hlimit := by
    obtain ⟨hlt, htop, hmore⟩ := hf.hint ((h _).symm.trans hx) htotal hlimit
    exact ⟨hlt, htop, fun y hy => (h _).trans (hmore y hy)⟩

end

theorem Steady.ite {p : Prop} [Decidable p] {g : Counter ε β α}
    (hf : p → Steady retry need limit f front) (hg : ¬p → Steady retry need limit g front) :
    Steady retry need limit (fun x => if p then f x else g x) front := by
  by_cases h : p
  · simpa only [if_pos h] using hf h
  · simpa only [if_neg h] using hg h

/-! ### From the beginning of the input -/

variable {x : List β} {a : α} {n : Nat}

section

variable (hf : Steady retry need limit f [])
include hf

section

variable (h : f x = .ok (a, n))
include h

theorem Steady.le_length : n ≤ x.length := by
  obtain ⟨item, rest, rfl, hn, -⟩ := hf.ok h
  rw [hn, nil_append, length_append]
  exact Nat.le_add_right _ _

theorem Steady.take (y : List β) : f (x.take n ++ y) = .ok (a, n) := by
  obtain ⟨item, rest, rfl, hn, hall⟩ := hf.ok h
  rw [hn, nil_append, take_left]
  exact (hall y).trans (by rw [hn]; rfl)

theorem Steady.append (y : List β) : f (x ++ y) = .ok (a, n) := by
  have hmore := hf.take h (x.drop n ++ y)
  rwa [← append_assoc, take_append_drop] at hmore

/-- **A part of a value asks for more.** -/
theorem Steady.cut {k : Nat} (hk : k < n) :
    ∃ err, f (x.take k) = .error err ∧ retry err = true := by
  have hle := hf.le_length h
  cases hcut : f (x.take k) with
  | ok p =>
    have hmore := hf.append hcut (x.drop k)
    have hp := hf.le_length hcut
    rw [take_append_drop, h] at hmore
    cases hmore
    rw [length_take] at hp
    omega
  | error err =>
    refine ⟨err, rfl, ?_⟩
    by_contra hretry
    have hmore := hf.fatal hcut (Bool.eq_false_iff.mpr hretry) (x.drop k)
    rw [nil_append, take_append_drop, h] at hmore
    cases hmore

end

end

/-! ### All complete values of an input -/

/-- Values are read as long as there are complete ones: the values, what is left, and the error that
is reported there. -/
inductive Drains (f : Counter ε β α) : List β → List α → List β → ε → Prop
  | stop {x : List β} {err : ε} (h : f x = .error err) : Drains f x [] x err
  | value {x rest : List β} {a : α} {n : Nat} {values : List α} {err : ε} (h : f x = .ok (a, n))
    (hrest : Drains f (x.drop n) values rest err) : Drains f x (a :: values) rest err

variable {values : List α} {rest : List β} {err : ε}

theorem Drains.error (h : Drains f x values rest err) : f rest = .error err := by
  induction h with
  | stop h => exact h
  | value _ _ ih => exact ih

theorem Drains.unique {values' : List α} {rest' : List β} {err' : ε}
    (h : Drains f x values rest err) (h' : Drains f x values' rest' err') :
    values = values' ∧ rest = rest' ∧ err = err' := by
  induction h generalizing values' with
  | stop h =>
    cases h' with
    | stop h' =>
      rw [h] at h'
      cases h'
      exact ⟨rfl, rfl, rfl⟩
    | value h' =>
      rw [h] at h'
      cases h'
  | value h _ ih =>
    cases h' with
    | stop h' =>
      rw [h] at h'
      cases h'
    | value h' hrest' =>
      rw [h] at h'
      cases h'
      obtain ⟨rfl, rfl, rfl⟩ := ih hrest'
      exact ⟨rfl, rfl, rfl⟩

section

variable (hf : Steady retry need limit f [])
include hf

/-- **More input is read on from what was left.** -/
theorem Drains.append {values' : List α}
    {rest' : List β} {err' : ε} (h : Drains f x values rest err) {y : List β}
    (hmore : Drains f (rest ++ y) values' rest' err') :
    Drains f (x ++ y) (values ++ values') rest' err' := by
  induction h with
  | stop _ => exact hmore
  | @value x rest a n values err h _ ih =>
    refine .value (hf.append h y) ?_
    rw [drop_append_of_le_length (hf.le_length h)]
    exact ih hmore

theorem Drains.fatal (h : Drains f x values rest err) (hretry : retry err = false) (y : List β) :
    Drains f (x ++ y) values (rest ++ y) err := by
  have hmore := h.append hf (.stop (hf.fatal h.error hretry y))
  rwa [append_nil] at hmore

theorem Drains.split {err₀ : ε} (hnil : f [] = .error err₀) (h : Drains f x values rest err) :
    ∃ front, x = front ++ rest ∧ Drains f front values [] err₀ := by
  induction h with
  | stop _ => exact ⟨[], rfl, .stop hnil⟩
  | @value x rest a n values err h _ ih =>
    obtain ⟨front, hfront, hdrains⟩ := ih
    have hx : x = x.take n ++ front ++ rest := by
      rw [append_assoc, ← hfront, take_append_drop]
    refine ⟨x.take n ++ front, hx, .value (hf.take h front) ?_⟩
    rwa [drop_left' (length_take_of_le (hf.le_length h))]

end

theorem exists_drains (hpos : ∀ {x a n}, f x = .ok (a, n) → 0 < n)
    (hf : Steady retry need limit f []) (x : List β) : ∃ values rest err, Drains f x values rest err := by
  induction hx : x.length using Nat.strongRecOn generalizing x with
  | _ length ih =>
    cases h : f x with
    | error err => exact ⟨[], x, err, .stop h⟩
    | ok p =>
      have hle := hf.le_length h
      have hp := hpos h
      have hshort : (x.drop p.2).length < length := by
        rw [length_drop]
        omega
      obtain ⟨values, rest, err, hrest⟩ := ih _ hshort (x.drop p.2) rfl
      exact ⟨p.1 :: values, rest, err, .value h hrest⟩

end Counters

end Incremental
