import Mathlib.Algebra.BigOperators.Intervals
import Mathlib.Algebra.BigOperators.Ring.Finset
import Mathlib.Data.Nat.Bitwise
import Stash.Answers

/-!
# Bitmaps

A string is read as a sequence of bits, the most significant bit of a byte first, with zeros behind
its end.  Setting a bit replaces one element of that sequence, whichever way the string is written
(`bitAt_setBitPayload`), and counting adds the sequence up (`sum_bitAt`).
-/

namespace Stash

open List

/-! ## Bits of a byte -/

section Byte

variable (byte : UInt8) {k : Nat}

theorem toNat_mask (hk : k < 8) : (UInt8.ofNat (2 ^ k)).toNat = 2 ^ k :=
  UInt8.toNat_ofNat_of_lt' (Nat.pow_lt_pow_right (by decide) hk)

theorem and_mask_eq_zero (hk : k < 8) :
    byte &&& UInt8.ofNat (2 ^ k) = 0 ↔ byte.toNat.testBit k = false := by
  rw [← UInt8.toNat_inj, UInt8.toNat_and, toNat_mask hk, Nat.and_two_pow]
  cases byte.toNat.testBit k <;> simp

theorem testBit_setBitInByte (hk : k < 8) {i : Nat} (hi : i < 8) (bit : Int) :
    (setBitInByte byte (UInt8.ofNat (2 ^ k)) bit).toNat.testBit i =
      if i = k then decide (bit = 1) else byte.toNat.testBit i := by
  have hmask : (UInt8.ofNat (2 ^ k)).toNat.testBit i = decide (k = i) := by
    rw [toNat_mask hk, Nat.testBit_two_pow]
  unfold setBitInByte
  by_cases hbit : bit = 1
  · rw [if_pos hbit, UInt8.toNat_or, Nat.testBit_or, hmask]
    by_cases h : i = k
    · simp [h, hbit]
    · simp [h, Ne.symm h]
  · rw [if_neg hbit]
    change (byte.toBitVec &&& ~~~(UInt8.ofNat (2 ^ k)).toBitVec).getLsbD i = _
    rw [BitVec.getLsbD_and, BitVec.getLsbD_not]
    change (byte.toNat.testBit i && (decide (i < 8) && !(UInt8.ofNat (2 ^ k)).toNat.testBit i)) = _
    rw [hmask]
    by_cases h : i = k
    · simp [h, hbit]
    · simp [h, Ne.symm h, hi]

end Byte

theorem length_filter_range (p : Nat → Bool) (n : Nat) :
    (((range n).filter p).length : Int) = ∑ i ∈ Finset.range n, ((p i).toNat : Int) := by
  induction n with
  | zero => rfl
  | succ n ih =>
    rw [range_succ, filter_append, length_append, Finset.sum_range_succ, ← ih]
    cases hp : p n <;> simp [hp]

/-! ## Bits of a string -/

/-- The byte at a position, with zeros behind the end. -/
def byteAt (data : Bytes) (index : Nat) : UInt8 :=
  data[index]?.getD 0

variable (data : Bytes)

theorem bitAt_eq (offset : Int) :
    bitAt data offset =
      ((byteAt data (offset / 8).toNat).toNat.testBit (7 - (offset % 8).toNat)).toNat := by
  unfold bitAt byteAt bitMask
  cases data[(offset / 8).toNat]? with
  | none => simp
  | some byte =>
    simp only [and_mask_eq_zero byte (by omega : 7 - (offset % 8).toNat < 8), Option.getD_some]
    cases byte.toNat.testBit (7 - (offset % 8).toNat) <;> rfl

theorem byteAt_setBitPayload (offset bit : Int) (index : Nat) :
    byteAt (setBitPayload data offset bit) index =
      if index = (offset / 8).toNat then setBitInByte (byteAt data index) (bitMask offset) bit
      else byteAt data index := by
  have hgrown : ∀ n, byteAt (data ++ replicate n 0) index = byteAt data index := by
    intro n
    unfold byteAt
    by_cases h : index < data.length
    · rw [getElem?_append_left h]
    · rw [getElem?_append_right (by omega), getElem?_eq_none (by omega : data.length ≤ index),
        getElem?_replicate]
      split <;> rfl
  rw [← hgrown ((offset / 8).toNat + 1 - data.length)]
  unfold setBitPayload byteAt
  simp only [getElem?_modify]
  by_cases h : index = (offset / 8).toNat
  · have hinside : index < (data ++ replicate ((offset / 8).toNat + 1 - data.length) 0).length := by
      rw [length_append, length_replicate]
      omega
    rw [if_pos h, getElem?_eq_getElem hinside]
    simp [h]
  · rw [if_neg h]
    simp [Ne.symm h]

/-- **Setting a bit** changes that bit and no other one. -/
theorem bitAt_setBitPayload {offset bit j : Int} (hoffset : 0 ≤ offset) (hj : 0 ≤ j)
    (hbit : bit = 0 ∨ bit = 1) :
    bitAt (setBitPayload data offset bit) j = if j = offset then bit else bitAt data j := by
  rw [bitAt_eq, byteAt_setBitPayload, bitMask]
  by_cases hbyte : (j / 8).toNat = (offset / 8).toNat
  · rw [if_pos hbyte, testBit_setBitInByte _ (by omega) (by omega)]
    by_cases hsame : j = offset
    · rw [if_pos hsame, if_pos (by rw [hsame])]
      rcases hbit with rfl | rfl <;> rfl
    · rw [if_neg hsame, if_neg (by omega), bitAt_eq]
  · rw [if_neg hbyte, if_neg (fun hsame => hbyte (by rw [hsame])), bitAt_eq]

theorem length_setBitPayload (offset bit : Int) :
    (setBitPayload data offset bit).length = max data.length ((offset / 8).toNat + 1) := by
  unfold setBitPayload
  rw [length_modify, length_append, length_replicate]
  omega

theorem bitAt_of_length_le {data : Bytes} {j : Int} (h : 8 * data.length ≤ j) : bitAt data j = 0 := by
  unfold bitAt
  rw [getElem?_eq_none (by omega)]

/-- **The bits of a string add up to the ones of its bytes.** -/
theorem sum_bitAt {n : Nat} (h : data.length ≤ n) :
    ∑ j ∈ Finset.range (8 * n), bitAt data (j : Nat) = ((data.map onesCount).sum : Nat) := by
  induction data generalizing n with
  | nil => exact Finset.sum_eq_zero fun j _ => rfl
  | cons byte data ih =>
    obtain ⟨m, rfl⟩ : ∃ m, n = m + 1 := ⟨n - 1, by rw [length_cons] at h; omega⟩
    have hfirst : ∑ j ∈ Finset.range 8, bitAt (byte :: data) (j : Nat) = onesCount byte := by
      rw [onesCount, length_filter_range, ← Finset.sum_range_reflect]
      refine Finset.sum_congr rfl fun j hj => ?_
      have hj := Finset.mem_range.mp hj
      rw [bitAt_eq, show (((8 - 1 - j : Nat) : Int) / 8).toNat = 0 by omega,
        show 7 - (((8 - 1 - j : Nat) : Int) % 8).toNat = j by omega]
      rfl
    have hrest : ∀ j : Nat, bitAt (byte :: data) ((8 + j : Nat) : Int) = bitAt data (j : Nat) := by
      intro j
      rw [bitAt_eq, bitAt_eq, show (((8 + j : Nat) : Int) / 8).toNat = ((j : Int) / 8).toNat + 1 by omega,
        show ((8 + j : Nat) : Int) % 8 = (j : Int) % 8 by omega]
      rfl
    rw [Nat.mul_succ, Nat.add_comm, Finset.sum_range_add, hfirst, Finset.sum_congr rfl fun j _ => hrest j,
      ih (Nat.le_of_succ_le_succ h), map_cons, sum_cons, Nat.cast_add]

theorem countBits_none {data : Bytes} {n : Nat} (h : data.length ≤ n) :
    countBits data none = ∑ j ∈ Finset.range (8 * n), bitAt data (j : Nat) := by
  rw [sum_bitAt data h, countBits]
  by_cases hnil : data = []
  · rw [if_pos hnil, hnil]
    rfl
  · have hpos := length_pos_iff.mpr hnil
    rw [if_neg hnil]
    simp only [normalizeBitmapRange]
    rw [drop_zero, take_of_length_le (by omega)]

theorem sum_bitAt_eq_card (n : Nat) :
    ∑ j ∈ Finset.range n, bitAt data (j : Nat) =
      ((Finset.range n).filter fun j : Nat => bitAt data j = 1).card := by
  rw [Finset.card_filter, Nat.cast_sum]
  refine Finset.sum_congr rfl fun j _ => ?_
  rw [bitAt_eq]
  cases (byteAt data ((j : Int) / 8).toNat).toNat.testBit (7 - ((j : Int) % 8).toNat) <;> rfl

/-- The count changes by the bit that is set. -/
theorem countBits_setBitPayload {offset bit : Int} (hoffset : 0 ≤ offset)
    (hbit : bit = 0 ∨ bit = 1) :
    countBits (setBitPayload data offset bit) none =
      countBits data none + bit - bitAt data offset := by
  obtain ⟨i, rfl⟩ := Int.eq_ofNat_of_zero_le hoffset
  have hlength := (length_setBitPayload data i bit).le
  have hmem : i ∈ Finset.range (8 * max data.length ((i / 8 : Int).toNat + 1)) := by
    rw [Finset.mem_range]
    omega
  have hothers : ∀ j ∈ (Finset.range (8 * max data.length ((i / 8 : Int).toNat + 1))).erase i,
      bitAt (setBitPayload data i bit) (j : Nat) = bitAt data (j : Nat) := by
    intro j hj
    have hne : (j : Int) ≠ i := by exact_mod_cast Finset.ne_of_mem_erase hj
    rw [bitAt_setBitPayload data hoffset (Int.natCast_nonneg j) hbit, if_neg hne]
  rw [countBits_none hlength, countBits_none (le_max_left data.length ((i / 8 : Int).toNat + 1)),
    ← Finset.add_sum_erase _ _ hmem, ← Finset.add_sum_erase _ _ hmem, Finset.sum_congr rfl hothers,
    bitAt_setBitPayload data hoffset hoffset hbit, if_pos rfl]
  omega

/-! ## Ranges of bytes -/

/-- What `ListRange` selects. -/
def listSelects {α : Type} (items : List α) (start stop : Int) : List α :=
  match Store.normalizeListRange items.length start stop with
  | none => []
  | some (first, last) => (items.drop first).take (last + 1 - first)

/-- The two normalisations of a range agree. -/
theorem normalizeBitmapRange_eq {length : Nat} (hpos : length ≠ 0) (start stop : Int) :
    normalizeBitmapRange length (some (start, stop)) =
      Store.normalizeListRange length start stop := by
  simp only [normalizeBitmapRange, Store.normalizeListRange, Store.normalizeListIndex, if_neg hpos]
  split_ifs <;> first | rfl | omega | (congr 2 <;> omega)

theorem countBits_range (start stop : Int) :
    countBits data (some (start, stop)) = ((listSelects data start stop).map onesCount).sum := by
  unfold countBits listSelects
  by_cases hnil : data = []
  · subst hnil
    rfl
  · rw [if_neg hnil, normalizeBitmapRange_eq (mt length_eq_zero_iff.mp hnil)]
    cases Store.normalizeListRange data.length start stop <;> rfl

/-! ## Bitmaps in the store -/

namespace Store

/-- The key holds the string with its deadline, or there is no key and the string is empty. -/
def HoldsBitmap (s : Store) (key : Bytes) (now : Int) (data : Bytes) (deadline : Int) : Prop :=
  match liveValue (s.lookup key) now with
  | none => data = [] ∧ deadline = 0
  | some value => value.payload = .string data ∧ value.expiresAt = deadline

/-- The answer of a read, where a missing key counts as zero. -/
def orZero (r : Store × Except StorageError (Option Int)) : Except StorageError Int :=
  r.2.map fun answer => answer.getD 0

variable {s : Store} {key data : Bytes} {deadline : Int} {env : Env}

section

variable (h : s.HoldsBitmap key (env.now 0) data deadline)
include h

theorem HoldsBitmap.read {f : Bytes → Int} (hempty : f [] = 0) :
    orZero (s.readKey key env fun value => (stringValue value).map f) = .ok (f data) := by
  unfold HoldsBitmap at h
  unfold orZero
  rw [readKey_answer]
  cases hlive : liveValue (s.lookup key) (env.now 0) with
  | none =>
    rw [hlive] at h
    rw [h.1, hempty]
    rfl
  | some value =>
    rw [hlive] at h
    rw [Option.elim_some, stringValue, h.1]
    rfl

theorem HoldsBitmap.getBit {j : Int}
    (hj : 0 ≤ j ∧ j ≤ maxBitmapOffset) : orZero (s.getBit key j env) = .ok (bitAt data j) := by
  have hvalid : validateBitmapOffset j = .ok () :=
    if_neg (not_or.mpr ⟨not_lt.mpr hj.1, not_lt.mpr hj.2⟩)
  rw [Store.getBit, hvalid]
  exact h.read rfl

theorem HoldsBitmap.bitCount
    (range : Option (Int × Int)) : orZero (s.bitCount key range env) = .ok (countBits data range) :=
  h.read (if_pos rfl)

end

theorem validateBitmapArguments_ok {offset bit : Int}
    (h : validateBitmapArguments offset bit = .ok ()) :
    (0 ≤ offset ∧ offset ≤ maxBitmapOffset) ∧ (bit = 0 ∨ bit = 1) := by
  unfold validateBitmapArguments validateBitmapOffset at h
  by_cases hoffset : offset < 0 ∨ maxBitmapOffset < offset
  · rw [if_pos hoffset] at h
    cases h
  · rw [if_neg hoffset] at h
    obtain ⟨hlow, hhigh⟩ := not_or.mp hoffset
    refine ⟨⟨not_lt.mp hlow, not_lt.mp hhigh⟩, ?_⟩
    by_contra hbit
    rw [not_or] at hbit
    change (if bit ≠ 0 ∧ bit ≠ 1 then throw StorageError.valueNotInteger else pure ()) = _ at h
    rw [if_pos hbit] at h
    cases h

/-- **A successful `SetBit`** answers the former bit, and stores the string with the bit and the
deadline it had, whether it is written where it lies or anew. -/
theorem HoldsBitmap.setBit {s' : Store} {offset bit former : Int} {evicted : List Bytes}
    (h : s.HoldsBitmap key (env.now 0) data deadline)
    (hset : s.setBit key offset bit env = (s', .ok (former, evicted))) :
    (0 ≤ offset ∧ offset ≤ maxBitmapOffset) ∧ (bit = 0 ∨ bit = 1) ∧ former = bitAt data offset ∧
      ∀ {now : Int}, isExpired deadline now = false →
        s'.HoldsBitmap key now (setBitPayload data offset bit) deadline := by
  unfold Store.setBit at hset
  cases hvalid : validateBitmapArguments offset bit with
  | error err =>
    rw [hvalid] at hset
    cases hset
  | ok =>
    rw [hvalid] at hset
    obtain ⟨hoffset, hbit⟩ := validateBitmapArguments_ok hvalid
    obtain ⟨value, -, hlookup, haction⟩ := s.writeKey_ok (congrArg Prod.snd hset)
    rw [show (s.writeKey key env (setBitAction offset bit)).1 = s' from congrArg Prod.fst hset]
      at hlookup
    have hvalue : former = bitAt data offset ∧
        value = .ofString (setBitPayload data offset bit) deadline (env.clock 0).millis := by
      unfold HoldsBitmap at h
      cases hlive : liveValue (s.lookup key) (env.now 0) with
      | none =>
        rw [hlive] at h haction
        obtain ⟨rfl, rfl⟩ := h
        simpa [setBitAction, eq_comm, and_comm] using haction
      | some current =>
        rw [hlive] at h haction
        obtain ⟨hpayload, rfl⟩ := h
        simp only [setBitAction, hpayload] at haction
        split at haction <;> simpa [eq_comm, and_comm] using haction
    obtain ⟨hformer, rfl⟩ := hvalue
    refine ⟨hoffset, hbit, hformer, fun hlive => ?_⟩
    unfold HoldsBitmap
    rw [hlookup, liveValue, Option.filter_some, ValueObject.ofString, hlive]
    exact ⟨rfl, rfl⟩

/-- **Laws of bitmaps.**  `GetBit` answers the bits of the string, and `BitCount` how many of them are
set, in all or in the bytes that `ListRange` would select.  After a successful `SetBit` one bit is as
it says, the others, the deadline and the bytes of the string are as they were, and the count has
changed by that bit alone. -/
theorem bitmap_laws {before : Env} (h : s.HoldsBitmap key (before.now 0) data deadline)
    (hlength : data.length ≤ 2 ^ 29) :
    (∀ j, 0 ≤ j ∧ j ≤ maxBitmapOffset → orZero (s.getBit key j before) = .ok (bitAt data j)) ∧
    orZero (s.bitCount key none before) =
      .ok ((Finset.range (2 ^ 32)).filter fun j : Nat => bitAt data j = 1).card ∧
    (∀ start stop, orZero (s.bitCount key (some (start, stop)) before) =
      .ok ((listSelects data start stop).map onesCount).sum) ∧
    ∀ {s' : Store} {offset bit former : Int} {evicted : List Bytes} {env after : Env},
      s.HoldsBitmap key (env.now 0) data deadline →
      s.setBit key offset bit env = (s', .ok (former, evicted)) →
      isExpired deadline (after.now 0) = false →
      orZero (s.getBit key offset before) = .ok former ∧
      (∀ j, 0 ≤ j ∧ j ≤ maxBitmapOffset → orZero (s'.getBit key j after) =
        if j = offset then .ok bit else orZero (s.getBit key j before)) ∧
      (∃ data', s'.HoldsBitmap key (after.now 0) data' deadline ∧
        data'.length = max data.length ((offset / 8).toNat + 1) ∧
        ∀ j : Int, 8 * data.length ≤ j → j ≠ offset → bitAt data' j = 0) ∧
      orZero (s'.bitCount key none after) =
        (orZero (s.bitCount key none before)).map fun count => count + bit - former := by
  refine ⟨fun j hj => h.getBit hj, ?_, fun start stop => ?_, fun henv hset hafter => ?_⟩
  · rw [h.bitCount, countBits_none hlength, sum_bitAt_eq_card]
    rfl
  · rw [h.bitCount, countBits_range]
  · obtain ⟨hoffset, hbit, rfl, hholds⟩ := henv.setBit hset
    have hnew := hholds hafter
    refine ⟨h.getBit hoffset, fun j hj => ?_, ⟨_, hnew, length_setBitPayload .., fun j hj hne => ?_⟩, ?_⟩
    · rw [hnew.getBit hj, h.getBit hj, bitAt_setBitPayload data hoffset.1 hj.1 hbit]
      split <;> rfl
    · rw [bitAt_setBitPayload data hoffset.1 (by omega) hbit, if_neg hne, bitAt_of_length_le hj]
    · rw [hnew.bitCount, h.bitCount, countBits_setBitPayload data hoffset.1 hbit]
      rfl

/-- SETBIT of the last bit of the first byte, on a store without keys. -/
theorem bitmap_laws_new : ∃ s', (newStore fun _ => 0).setBit [1] 7 1
      (.frozen (.ofMillis 1000 (by decide))) = (s', .ok (0, [])) ∧
    orZero (s'.bitCount [1] none (.frozen (.ofMillis 1000 (by decide)))) = .ok 1 := by
  have hset : (newStore fun _ => 0).setBit [1] 7 1 (.frozen (.ofMillis 1000 (by decide))) =
    (_, .ok (0, [])) := rfl
  have hnew : (newStore fun _ => 0).HoldsBitmap [1]
    (Env.now (.frozen (.ofMillis 1000 (by decide))) 0) [] 0 := ⟨rfl, rfl⟩
  exact ⟨_, hset, ((bitmap_laws hnew (by decide)).2.2.2 hnew hset rfl).2.2.2.trans rfl⟩

end Store

end Stash
