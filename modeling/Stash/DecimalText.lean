import Mathlib.Data.Nat.Digits.Lemmas
import Mathlib.Data.List.Basic

/-!
# Decimal text

Signed decimal numerals as byte strings: writing an integer, reading one back, and the facts a
wire format needs about the written form (it is read back exactly, it is never empty, it holds
only digits after an optional minus sign, and its length grows with the number of digits).

Reading accepts one optional sign and any number of leading zeros, so it is not injective;
writing is.
-/

namespace DecimalText

open List

/-- The bytes of an ASCII literal. -/
def ascii (s : String) : List UInt8 :=
  s.toList.map fun c => c.toNat.toUInt8

def isDigit (b : UInt8) : Bool :=
  48 ≤ b.toNat && b.toNat ≤ 57

def digitValue (b : UInt8) : Nat :=
  b.toNat - 48

def digitByte (d : Nat) : UInt8 :=
  (48 + d).toUInt8

/-- The value of a digit string read from the left, continuing from `acc`. -/
def digitsValue (acc : Nat) (ds : List UInt8) : Nat :=
  ds.foldl (fun v b => v * 10 + digitValue b) acc

def formatNat (n : Nat) : List UInt8 :=
  if n = 0 then [48] else (Nat.digits 10 n).reverse.map digitByte

def formatInt : Int → List UInt8
  | .ofNat n => formatNat n
  | .negSucc n => 45 :: formatNat (n + 1)

def readNat (ds : List UInt8) : Option Nat :=
  if ds ≠ [] ∧ ds.all isDigit then some (digitsValue 0 ds) else none

/-- A numeral: one optional sign, then at least one digit. -/
def readInt : List UInt8 → Option Int
  | [] => none
  | b :: rest =>
    if b = 45 then (readNat rest).map fun n : Nat => -(n : Int)
    else if b = 43 then (readNat rest).map fun n : Nat => (n : Int)
    else (readNat (b :: rest)).map fun n : Nat => (n : Int)

/-! ## Machine integers -/

/-- The integers of 64 bits. -/
def InInt64 (z : Int) : Prop :=
  -2 ^ 63 ≤ z ∧ z < 2 ^ 63

instance (z : Int) : Decidable (InInt64 z) :=
  inferInstanceAs (Decidable (_ ∧ _))

/-- Wrap-around arithmetic: the integer of 64 bits with the same low bits. -/
def wrap64 (z : Int) : Int :=
  z.bmod (2 ^ 64)

/-- Read a numeral whose value has 64 bits. -/
def readInt64 (ds : List UInt8) : Option Int :=
  (readInt ds).filter fun z => InInt64 z

/-! ## Digits -/

variable {d n : Nat} {ds : List UInt8} {z : Int}

theorem digitByte_toNat (h : d < 10) : (digitByte d).toNat = 48 + d := by
  simp only [digitByte, Nat.toUInt8, UInt8.toNat_ofNat']
  omega

theorem isDigit_digitByte (h : d < 10) : isDigit (digitByte d) = true := by
  simp only [isDigit, digitByte_toNat h, Bool.and_eq_true, decide_eq_true_eq]
  omega

theorem digitValue_digitByte (h : d < 10) : digitValue (digitByte d) = d := by
  simp only [digitValue, digitByte_toNat h]
  omega

theorem digitsValue_append (acc : Nat) (xs ys : List UInt8) :
    digitsValue acc (xs ++ ys) = digitsValue (digitsValue acc xs) ys := by
  simp [digitsValue, foldl_append]

theorem le_digitsValue (acc : Nat) (ds : List UInt8) : acc ≤ digitsValue acc ds := by
  induction ds generalizing acc with
  | nil => exact le_refl _
  | cons b rest ih => exact le_trans (by omega) (ih (acc * 10 + digitValue b))

theorem digitsValue_reverse_map (ds : List Nat) (h : ∀ d ∈ ds, d < 10) :
    digitsValue 0 (ds.reverse.map digitByte) = Nat.ofDigits 10 ds := by
  induction ds with
  | nil => rfl
  | cons d rest ih =>
    have hrest := ih fun x hx => h x (mem_cons_of_mem d hx)
    rw [reverse_cons, map_append, digitsValue_append, hrest, Nat.ofDigits_cons]
    simp only [digitsValue, map_cons, map_nil, foldl_cons, foldl_nil,
      digitValue_digitByte (h d mem_cons_self)]
    omega

/-! ## Written numerals -/

theorem formatNat_ne_nil (n : Nat) : formatNat n ≠ [] := by
  unfold formatNat
  split
  · simp
  · rename_i h
    simpa [Nat.digits_eq_nil_iff_eq_zero] using h

theorem formatNat_all_digits (n : Nat) : (formatNat n).all isDigit = true := by
  unfold formatNat
  split
  · decide
  · simp only [all_map, all_reverse, all_eq_true, Function.comp]
    intro d hd
    exact isDigit_digitByte (Nat.digits_lt_base (by omega) hd)

theorem digitsValue_formatNat (n : Nat) : digitsValue 0 (formatNat n) = n := by
  unfold formatNat
  split
  · rename_i h
    subst h
    rfl
  · rw [digitsValue_reverse_map _ fun d hd => Nat.digits_lt_base (by omega) hd]
    exact Nat.ofDigits_digits 10 n

theorem readNat_formatNat (n : Nat) : readNat (formatNat n) = some n := by
  rw [readNat, if_pos ⟨formatNat_ne_nil n, formatNat_all_digits n⟩, digitsValue_formatNat]

theorem readNat_eq_some_iff :
    readNat ds = some n ↔ ds ≠ [] ∧ ds.all isDigit = true ∧ n = digitsValue 0 ds := by
  unfold readNat
  split
  · rename_i h
    simp [h, eq_comm]
  · rename_i h
    simp only [reduceCtorEq, false_iff]
    rintro ⟨h₁, h₂, -⟩
    exact h ⟨h₁, h₂⟩

theorem map_readNat_eq_some_iff (ds : List UInt8) (z : Int) :
    (readNat ds).map (fun n : Nat => (n : Int)) = some z ↔ readNat ds = some z.toNat ∧ 0 ≤ z := by
  rw [Option.map_eq_some_iff]
  constructor
  · rintro ⟨n, hn, rfl⟩
    simp [hn]
  · rintro ⟨hn, hz⟩
    exact ⟨z.toNat, hn, Int.toNat_of_nonneg hz⟩

theorem map_neg_readNat_eq_some_iff (ds : List UInt8) (z : Int) :
    (readNat ds).map (fun n : Nat => -(n : Int)) = some z ↔
      readNat ds = some (-z).toNat ∧ z ≤ 0 := by
  rw [Option.map_eq_some_iff]
  constructor
  · rintro ⟨n, hn, rfl⟩
    simp [hn]
  · rintro ⟨hn, hz⟩
    exact ⟨(-z).toNat, hn, by omega⟩

theorem isDigit_ne_sign {b : UInt8} (h : isDigit b = true) : b ≠ 45 ∧ b ≠ 43 := by
  constructor <;> rintro rfl <;> exact absurd h (by decide)

theorem readInt_of_all_digits (h : ds.all isDigit = true) :
    readInt ds = (readNat ds).map fun n : Nat => (n : Int) := by
  cases ds with
  | nil => rfl
  | cons b rest =>
    have hb := isDigit_ne_sign (by simpa using (all_eq_true.mp h) b mem_cons_self)
    simp [readInt, hb.1, hb.2]

theorem readNat_front {more : List UInt8} (h : readNat (ds ++ more) = some n)
    (hne : ds ≠ []) : ∃ m ≤ n, readNat ds = some m := by
  obtain ⟨-, hall, rfl⟩ := readNat_eq_some_iff.mp h
  rw [all_append, Bool.and_eq_true] at hall
  refine ⟨digitsValue 0 ds, ?_, readNat_eq_some_iff.mpr ⟨hne, hall.1, rfl⟩⟩
  rw [digitsValue_append]
  exact le_digitsValue _ more

/-- The front of a numeral is empty, a sign, or a numeral that is nearer to zero. -/
theorem readInt_front {more : List UInt8} (h : readInt (ds ++ more) = some z) :
    ds = [] ∨ ds = [43] ∨ ds = [45] ∨
      ∃ m, readInt ds = some m ∧ (m = 0 ∨ 0 < m ∧ m ≤ z ∨ m < 0 ∧ z ≤ m) := by
  cases ds with
  | nil => exact .inl rfl
  | cons b rest =>
    right
    simp only [cons_append, readInt] at h ⊢
    by_cases hminus : b = 45
    · subst hminus
      by_cases hrest : rest = []
      · exact .inr (.inl (by rw [hrest]))
      · rw [if_pos rfl] at h
        obtain ⟨n, hn, rfl⟩ := Option.map_eq_some_iff.mp h
        obtain ⟨m, hmn, hm⟩ := readNat_front hn hrest
        refine .inr (.inr ⟨-(m : Int), by rw [if_pos rfl, hm]; rfl, ?_⟩)
        omega
    · rw [if_neg hminus] at h
      by_cases hplus : b = 43
      · subst hplus
        by_cases hrest : rest = []
        · exact .inl (by rw [hrest])
        · rw [if_pos rfl] at h
          obtain ⟨n, hn, rfl⟩ := Option.map_eq_some_iff.mp h
          obtain ⟨m, hmn, hm⟩ := readNat_front hn hrest
          refine .inr (.inr ⟨(m : Int), by rw [if_neg hminus, if_pos rfl, hm]; rfl, ?_⟩)
          omega
      · rw [if_neg hplus, ← cons_append] at h
        obtain ⟨n, hn, rfl⟩ := Option.map_eq_some_iff.mp h
        obtain ⟨m, hmn, hm⟩ := readNat_front hn (cons_ne_nil b rest)
        refine .inr (.inr ⟨(m : Int), by rw [if_neg hminus, if_neg hplus, hm]; rfl, ?_⟩)
        omega

/-- **A written integer is read back exactly.** -/
theorem readInt_formatInt (z : Int) : readInt (formatInt z) = some z := by
  cases z with
  | ofNat n =>
    rw [formatInt, readInt_of_all_digits (formatNat_all_digits n), readNat_formatNat]
    rfl
  | negSucc n =>
    simp only [formatInt, readInt, if_true, readNat_formatNat]
    rfl

theorem formatInt_injective : Function.Injective formatInt := by
  intro a b h
  have := congrArg readInt h
  simpa [readInt_formatInt] using this

theorem formatInt_ne_nil (z : Int) : formatInt z ≠ [] := by
  cases z with
  | ofNat n => exact formatNat_ne_nil n
  | negSucc n => simp [formatInt]

theorem mem_formatInt {b : UInt8} (h : b ∈ formatInt z) : isDigit b = true ∨ b = 45 := by
  cases z with
  | ofNat n => exact .inl (all_eq_true.mp (formatNat_all_digits n) b h)
  | negSucc n =>
    rcases mem_cons.mp h with rfl | h
    · exact .inr rfl
    · exact .inl (all_eq_true.mp (formatNat_all_digits (n + 1)) b h)

theorem length_formatNat_le {k : Nat} (hk : 0 < k) (h : n < 10 ^ k) : (formatNat n).length ≤ k := by
  unfold formatNat
  split
  · exact hk
  · rename_i hn
    simpa using (Nat.digits_length_le_iff (by omega) n).mpr h

theorem length_formatInt_le {k : Nat} (hk : 0 < k) (h : z.natAbs < 10 ^ k) :
    (formatInt z).length ≤ k + 1 := by
  cases z with
  | ofNat n => exact Nat.le_succ_of_le (length_formatNat_le hk h)
  | negSucc n => exact Nat.succ_le_succ (length_formatNat_le hk h)

theorem digitsValue_lt (h : ds.all isDigit = true) (acc : Nat) :
    digitsValue acc ds < (acc + 1) * 10 ^ ds.length := by
  induction ds generalizing acc with
  | nil => simp [digitsValue]
  | cons b ds ih =>
    rw [all_cons, Bool.and_eq_true] at h
    have hdigit : digitValue b < 10 := by
      have hb := h.1
      simp only [isDigit, Bool.and_eq_true, decide_eq_true_eq] at hb
      unfold digitValue
      omega
    calc digitsValue acc (b :: ds) = digitsValue (acc * 10 + digitValue b) ds := rfl
      _ < (acc * 10 + digitValue b + 1) * 10 ^ ds.length := ih h.2 _
      _ ≤ ((acc + 1) * 10) * 10 ^ ds.length := Nat.mul_le_mul_right _ (by omega)
      _ = (acc + 1) * 10 ^ (ds.length + 1) := by rw [Nat.mul_assoc, ← Nat.pow_succ']

theorem length_formatNat_le_of_readNat (h : readNat ds = some n) :
    (formatNat n).length ≤ ds.length := by
  obtain ⟨hne, hall, rfl⟩ := readNat_eq_some_iff.mp h
  refine length_formatNat_le (length_pos_iff.mpr hne) ?_
  simpa using digitsValue_lt hall 0

theorem length_formatInt_le_of_readInt (h : readInt ds = some z) :
    (formatInt z).length ≤ ds.length := by
  cases ds with
  | nil => cases h
  | cons b ds =>
    simp only [readInt] at h
    by_cases hminus : b = 45
    · rw [if_pos hminus] at h
      obtain ⟨n, hn, rfl⟩ := Option.map_eq_some_iff.mp h
      have hle := length_formatNat_le_of_readNat hn
      cases n with
      | zero => exact hle.trans (Nat.le_succ _)
      | succ n => exact Nat.succ_le_succ hle
    · rw [if_neg hminus] at h
      by_cases hplus : b = 43
      · rw [if_pos hplus] at h
        obtain ⟨n, hn, rfl⟩ := Option.map_eq_some_iff.mp h
        exact (length_formatNat_le_of_readNat hn).trans (Nat.le_succ _)
      · rw [if_neg hplus] at h
        obtain ⟨n, hn, rfl⟩ := Option.map_eq_some_iff.mp h
        exact length_formatNat_le_of_readNat hn

theorem readInt64_eq_some_iff : readInt64 ds = some z ↔ readInt ds = some z ∧ InInt64 z := by
  rw [readInt64, Option.filter_eq_some_iff, decide_eq_true_eq]

theorem readInt64_formatInt (h : InInt64 z) : readInt64 (formatInt z) = some z :=
  readInt64_eq_some_iff.mpr ⟨readInt_formatInt z, h⟩

theorem wrap64_of_inInt64 (h : InInt64 z) : wrap64 z = z := by
  obtain ⟨hlo, hhi⟩ := h
  rw [wrap64, Int.bmod_eq_of_le] <;> omega

end DecimalText
