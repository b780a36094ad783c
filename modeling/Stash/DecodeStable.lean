import Stash.RespDecode

/-!
# Decoding a growing buffer

Every function of the decoder is steady in the sense of `Incremental.Steady`.  So `Decode` never
changes its verdict as bytes arrive: a value stays the value of its own bytes whatever follows, a
malformed frame stays malformed with the same error, and a frame that is known to need a number of
bytes is incomplete until they are there.
-/

namespace Stash

open DecimalText Incremental List

/-- `errors.Is(err, ErrIncomplete)`. -/
def DecodeError.asksForMore : DecodeError → Bool
  | .incomplete _ => true
  | .permanent _ => false

/-- `Need`, when the error carries one. -/
def DecodeError.need : DecodeError → Option Nat
  | .incomplete need => need
  | .permanent _ => none

/-- A slice has fewer elements than this. -/
def maxSlice : Nat := 2 ^ 63

/-- What the decoder answers stays when bytes are appended. -/
abbrev Stays {α : Type} (f : Bytes → Except DecodeError (α × Nat)) (front : Bytes) : Prop :=
  Steady DecodeError.asksForMore DecodeError.need maxSlice f front

theorem incompleteNeed_some {total : Nat} (htotal : total ≤ 2 ^ 64) {n : Nat}
    (h : (incompleteNeed total).need = some n) : n = total ∧ total < maxSlice := by
  have hmax : maxSlice = 2 ^ 63 := rfl
  unfold incompleteNeed at h
  split at h
  · cases h
  · rename_i hpos
    obtain rfl := Option.some.inj h
    unfold wrap64 at hpos ⊢
    rw [Int.bmod_def] at hpos ⊢
    split at hpos <;> omega

theorem incompleteNeed_asksForMore (total : Int) : (incompleteNeed total).asksForMore = true := by
  unfold incompleteNeed
  split <;> rfl

/-! ## Lines -/

theorem decodeLine_line {line : Bytes} (rest : Bytes) (hline : 10 ∉ line) :
    decodeLine (line ++ 10 :: rest) =
      ((trimCRLF (line ++ [10])).mapError .permanent).map (·, line.length + 1) := by
  have hindex : (line ++ 10 :: rest).findIdx? (· = 10) = some line.length := by
    have hnone : line.findIdx? (· = 10) = none := by
      rw [List.findIdx?_eq_none_iff]
      intro b hb
      exact decide_eq_false fun heq => hline (heq ▸ hb)
    rw [List.findIdx?_append, hnone, List.findIdx?_cons]
    simp
  have htake : (line ++ 10 :: rest).take (line.length + 1) = line ++ [10] := by
    rw [take_append, take_of_length_le (Nat.le_succ _), Nat.add_sub_cancel_left]
    rfl
  unfold decodeLine
  rw [hindex]
  simp only [htake]
  cases trimCRLF (line ++ [10]) <;> rfl

theorem decodeLine_open {buf : Bytes} (hbuf : 10 ∉ buf) :
    decodeLine buf = .error (.incomplete none) := by
  have hnone : buf.findIdx? (· = 10) = none := by
    rw [List.findIdx?_eq_none_iff]
    intro b hb
    exact decide_eq_false fun heq => hbuf (heq ▸ hb)
  unfold decodeLine
  rw [hnone]

/-- The line behind the marker, and where it ends. -/
def lineBehind (buf : Bytes) : Except DecodeError (Bytes × Nat) :=
  (decodeLine (buf.drop 1)).map fun p => (p.1, 1 + p.2)

variable (fromLine : Bytes → Except ParseError Value) (context : ErrorContext) (marker : UInt8)
    (buf : Bytes)

theorem stays_lineBehind : Stays lineBehind [marker] := by
  have hline : ∀ {line : Bytes} (rest : Bytes), 10 ∉ line → lineBehind ([marker] ++ (line ++ 10 :: rest)) =
      ((trimCRLF (line ++ [10])).mapError .permanent).map (·, 1 + (line.length + 1)) := by
    intro line rest hfree
    change (decodeLine (line ++ 10 :: rest)).map _ = _
    rw [decodeLine_line rest hfree]
    cases trimCRLF (line ++ [10]) <;> rfl
  have hopen : ∀ {x : Bytes}, 10 ∉ x → lineBehind ([marker] ++ x) = .error (.incomplete none) := by
    intro x hfree
    change (decodeLine x).map _ = _
    rw [decodeLine_open hfree]
    rfl
  constructor
  · intro x content n h
    by_cases hnl : 10 ∈ x
    · obtain ⟨line, rest, rfl, hfree⟩ := eq_append_cons_of_mem hnl
      rw [hline rest hfree] at h
      refine ⟨line ++ [10], rest, by simp, ?_, fun y => ?_⟩
      · obtain ⟨line', -, hn⟩ := map_ok h
        rw [← (Prod.mk.inj hn).2]
        simp only [length_append, length_cons, length_nil]
      · rw [append_assoc line [10] y]
        exact (hline y hfree).trans h
    · rw [hopen hnl] at h
      cases h
  · intro x err h hfatal y
    by_cases hnl : 10 ∈ x
    · obtain ⟨line, rest, rfl, hfree⟩ := eq_append_cons_of_mem hnl
      rw [hline rest hfree] at h
      rw [append_assoc, cons_append]
      exact (hline (rest ++ y) hfree).trans h
    · rw [hopen hnl] at h
      cases h
      cases hfatal
  · intro x err total h htotal
    by_cases hnl : 10 ∈ x
    · obtain ⟨line, rest, rfl, hfree⟩ := eq_append_cons_of_mem hnl
      rw [hline rest hfree] at h
      cases htrim : trimCRLF (line ++ [10]) with
      | error err' =>
        rw [htrim] at h
        cases h
        cases htotal
      | ok content =>
        rw [htrim] at h
        cases h
    · rw [hopen hnl] at h
      cases h
      cases htotal

theorem stays_check {α : Type} (check : Except ParseError α) (wrap : ParseError → ParseError)
    (front : Bytes) :
    Stays (fun _ => (check.mapError fun err => .permanent (wrap err)).map (·, front.length)) front := by
  cases check with
  | error err => exact steady_error rfl front
  | ok a => exact steady_ok a front

theorem decodeLineValue_eq :
    decodeLineValue fromLine buf = lineBehind buf >>= fun p =>
      ((fromLine p.1).mapError fun err => .permanent (id err)).map (·, p.2) := by
  unfold lineBehind decodeLineValue
  cases decodeLine (buf.drop 1) with
  | error err => rfl
  | ok p =>
    change ((fromLine p.1).mapError _ >>= fun value => .ok (value, 1 + p.2)) = _
    cases hfrom : fromLine p.1 <;> simp only [bind, Except.bind, Except.map, hfrom] <;> rfl

theorem decodeLength_eq :
    decodeLength context buf = lineBehind buf >>= fun p =>
      ((parseDecimalInt p.1).mapError fun err => .permanent (.wrap context err)).map (·, p.2) := by
  unfold lineBehind decodeLength
  cases decodeLine (buf.drop 1) with
  | error err => rfl
  | ok p =>
    change ((parseDecimalInt p.1).mapError _ >>= fun length => .ok (length, 1 + p.2)) = _
    cases hparse : parseDecimalInt p.1 <;> simp only [bind, Except.bind, Except.map, hparse]

theorem stays_decodeLineValue : Stays (decodeLineValue fromLine) [marker] := by
  have hwhole := (stays_lineBehind marker).bind (g := fun line consumed _ =>
    ((fromLine line).mapError fun err => .permanent (id err)).map (·, consumed))
    fun item line _ => stays_check (fromLine line) id ([marker] ++ item)
  rwa [← funext (decodeLineValue_eq fromLine)] at hwhole

theorem stays_decodeLength : Stays (decodeLength context) [marker] := by
  have hwhole := (stays_lineBehind marker).bind (g := fun line consumed _ =>
    ((parseDecimalInt line).mapError fun err => .permanent (.wrap context err)).map (·, consumed))
    fun item line _ => stays_check (parseDecimalInt line) (.wrap context) ([marker] ++ item)
  rwa [← funext (decodeLength_eq context)] at hwhole

/-! ## Bulk strings -/

theorem decodeLength_lt {context : ErrorContext} {buf : Bytes} {length : Int} {consumed : Nat}
    (h : decodeLength context buf = .ok (length, consumed)) : length < 2 ^ 63 := by
  unfold decodeLength at h
  obtain ⟨p, -, hlength⟩ := bind_ok h
  obtain ⟨length', hparse, hresult⟩ := bind_ok hlength
  obtain ⟨value, -, hvalue⟩ := map_ok (mapError_ok hparse)
  cases hresult
  rw [← hvalue]
  exact value.toInt_lt

/-- The payload of a bulk string, from its offset. -/
def decodePayload (length consumed : Nat) (buf : Bytes) : Except DecodeError (Value × Nat) :=
  let remaining := buf.drop consumed
  if (length : Int) > (remaining.length : Int) - 2 then .error (incompleteNeed (consumed + length + 2))
  else if (remaining.drop length).take 2 = crlf then
    .ok (.bulkString (remaining.take length) false, consumed + length + 2)
  else .error (.permanent (.wrap .bulkTerminator .missingCRLF))

theorem decodePayload_front (length : Nat) (front x : Bytes) :
    decodePayload length front.length (front ++ x) =
      if x.length < length + 2 then .error (incompleteNeed (front.length + length + 2))
      else if (x.drop length).take 2 = crlf then
        .ok (.bulkString (x.take length) false, front.length + length + 2)
      else .error (.permanent (.wrap .bulkTerminator .missingCRLF)) := by
  unfold decodePayload
  simp only [drop_left]
  by_cases hshort : x.length < length + 2
  · rw [if_pos hshort, if_pos (by omega)]
  · rw [if_neg hshort, if_neg (by omega)]

theorem stays_decodePayload {length : Nat} (hlength : length < 2 ^ 63) (front : Bytes) :
    Stays (decodePayload length front.length) front := by
  -- what is tested of the payload and its terminator lies in their own bytes
  have hmore : ∀ {x : Bytes} (y : Bytes), ¬x.length < length + 2 →
      decodePayload length front.length (front ++ (x ++ y)) =
        decodePayload length front.length (front ++ x) := by
    intro x y hlong
    have hdrop : ((x ++ y).drop length).take 2 = (x.drop length).take 2 := by
      rw [drop_append_of_le_length (by omega),
        take_append_of_le_length (by rw [length_drop]; omega)]
    rw [decodePayload_front, decodePayload_front, if_neg hlong,
      if_neg (by rw [length_append]; omega), hdrop, take_append_of_le_length (by omega)]
  constructor
  · intro x value n h
    by_cases hshort : x.length < length + 2
    · rw [decodePayload_front, if_pos hshort] at h
      cases h
    · have hitem : (x.take (length + 2)).length = length + 2 := by
        rw [length_take]
        omega
      have hall : ∀ y, decodePayload length front.length (front ++ (x.take (length + 2) ++ y)) =
          .ok (value, n) := by
        intro y
        rw [hmore y (by omega), ← hmore (x.drop (length + 2)) (by omega), take_append_drop]
        exact h
      refine ⟨x.take (length + 2), x.drop (length + 2), (take_append_drop _ _).symm, ?_, hall⟩
      rw [decodePayload_front, if_neg hshort] at h
      split at h
      · cases h
        rw [length_append, hitem]
        omega
      · cases h
  · intro x err h hfatal y
    by_cases hshort : x.length < length + 2
    · rw [decodePayload_front, if_pos hshort] at h
      obtain rfl := Except.error.inj h
      rw [incompleteNeed_asksForMore] at hfatal
      cases hfatal
    · rw [hmore y hshort]
      exact h
  · intro x err total h htotal hlimit
    have hmax : maxSlice = 2 ^ 63 := rfl
    by_cases hshort : x.length < length + 2
    · rw [decodePayload_front, if_pos hshort] at h
      obtain rfl := Except.error.inj h
      rw [length_append] at hlimit
      obtain ⟨rfl, htop⟩ := @incompleteNeed_some (front.length + length + 2) (by omega) total htotal
      refine ⟨by rw [length_append]; omega, htop, fun y hy => ?_⟩
      rw [length_append] at hy
      rw [decodePayload_front, if_pos (by omega)]
    · rw [decodePayload_front, if_neg hshort] at h
      split at h <;> cases h
      cases htotal

/-- A bulk string after its length. -/
def decodeBulkAfter (length : Int) (consumed : Nat) (buf : Bytes) :
    Except DecodeError (Value × Nat) :=
  if length = -1 then .ok (.bulkString [] true, consumed)
  else if length < -1 then .error (.permanent (.invalidBulkLength length))
  else decodePayload length.toNat consumed buf

theorem decodeBulkString_eq :
    decodeBulkString buf =
      decodeLength .bulkLength buf >>= fun p => decodeBulkAfter p.1 p.2 buf := by
  unfold decodeBulkString decodeBulkAfter
  refine congrArg (decodeLength .bulkLength buf >>= ·) (funext fun p => ?_)
  by_cases hneg : p.1 < -1
  · simp only [if_pos hneg, pure, Except.pure]
  · by_cases hnull : p.1 = -1
    · simp only [if_pos hnull, pure, Except.pure]
    · have hcast : (p.1.toNat : Int) = p.1 := Int.toNat_of_nonneg (by omega)
      simp only [if_neg hneg, if_neg hnull, decodePayload, hcast, pure, Except.pure]

theorem stays_decodeBulkAfter {length : Int} (hlength : length < 2 ^ 63) (front : Bytes) :
    Stays (decodeBulkAfter length front.length) front := by
  refine .ite (fun _ => steady_ok _ _) fun hnull => ?_
  refine .ite (fun _ => steady_error rfl _) fun hneg => ?_
  exact stays_decodePayload (by omega) front

theorem stays_decodeBulkString : Stays decodeBulkString [marker] := by
  have hwhole := (stays_decodeLength .bulkLength marker).bind (g := decodeBulkAfter)
    fun item length hlength => stays_decodeBulkAfter (decodeLength_lt hlength) _
  rwa [← funext decodeBulkString_eq] at hwhole

/-! ## Arrays -/

/-- The next element of an array, from its offset. -/
def decodeElement (decodeOne : Bytes → Except DecodeError (Value × Nat)) (index consumed : Nat)
    (buf : Bytes) : Except DecodeError (Value × Nat) :=
  match decodeOne (buf.drop consumed) with
  | .error (.incomplete (some need)) => .error (incompleteNeed (consumed + need))
  | .error (.incomplete none) => .error (.incomplete none)
  | .error (.permanent err) => .error (.permanent (.wrap (.arrayElement index) err))
  | .ok (element, n) => .ok (element, consumed + n)

theorem decodeElements_succ (decodeOne : Bytes → Except DecodeError (Value × Nat)) (buf : Bytes)
    (count index consumed : Nat) :
    decodeElements decodeOne buf (count + 1) index consumed =
      decodeElement decodeOne index consumed buf >>= fun p =>
        decodeElements decodeOne buf count (index + 1) p.2 >>= fun q => .ok (p.1 :: q.1, q.2) := by
  rw [decodeElements.eq_def, decodeElement]
  simp only
  cases decodeOne (buf.drop consumed) with
  | ok p => rfl
  | error err =>
    cases err with
    | permanent err => rfl
    | incomplete need => cases need <;> rfl

section Elements

variable {decodeOne : Bytes → Except DecodeError (Value × Nat)}

theorem decodeElement_front (index : Nat) (front x : Bytes) :
    (∃ element n, decodeOne x = .ok (element, n) ∧
      decodeElement decodeOne index front.length (front ++ x) = .ok (element, front.length + n)) ∨
    (decodeOne x = .error (.incomplete none) ∧
      decodeElement decodeOne index front.length (front ++ x) = .error (.incomplete none)) ∨
    (∃ need, decodeOne x = .error (.incomplete (some need)) ∧
      decodeElement decodeOne index front.length (front ++ x) =
        .error (incompleteNeed (front.length + need))) ∨
    ∃ err, decodeOne x = .error (.permanent err) ∧
      decodeElement decodeOne index front.length (front ++ x) =
        .error (.permanent (.wrap (.arrayElement index) err)) := by
  unfold decodeElement
  rw [drop_left]
  cases decodeOne x with
  | ok p => exact .inl ⟨p.1, p.2, rfl, rfl⟩
  | error err =>
    cases err with
    | permanent err => exact .inr (.inr (.inr ⟨err, rfl, rfl⟩))
    | incomplete need =>
      cases need with
      | none => exact .inr (.inl ⟨rfl, rfl⟩)
      | some need => exact .inr (.inr (.inl ⟨need, rfl, rfl⟩))

theorem decodeElement_ok {index : Nat} {front x : Bytes} {element : Value} {n : Nat}
    (h : decodeElement decodeOne index front.length (front ++ x) = .ok (element, front.length + n)) :
    decodeOne x = .ok (element, n) := by
  rcases decodeElement_front index front x with ⟨element', m, hx, hresult⟩ | ⟨-, hresult⟩ |
    ⟨need, -, hresult⟩ | ⟨err, -, hresult⟩
  · rw [hresult] at h
    obtain ⟨rfl, hn⟩ := Prod.mk.inj (Except.ok.inj h)
    rw [hx, Nat.add_left_cancel hn]
  all_goals
    rw [hresult] at h
    cases h

/-- The element is read again, and refused again, when the decoder of the elements does so. -/
theorem decodeElement_congr (index : Nat) {front x x' : Bytes} (h : decodeOne x' = decodeOne x) :
    decodeElement decodeOne index front.length (front ++ x') =
      decodeElement decodeOne index front.length (front ++ x) := by
  unfold decodeElement
  rw [drop_left, drop_left, h]

theorem stays_decodeElement (hone : Stays decodeOne []) (index : Nat) (front : Bytes) :
    Stays (decodeElement decodeOne index front.length) front where
  ok {x element n} h := by
    rcases decodeElement_front index front x with ⟨element', m, hx, hresult⟩ | ⟨-, hresult⟩ |
      ⟨need, -, hresult⟩ | ⟨err, -, hresult⟩
    · obtain ⟨item, rest, rfl, hm, hall⟩ := hone.ok hx
      have hn : element' = element ∧ front.length + m = n := by
        rw [hresult] at h
        exact Prod.mk.inj (Except.ok.inj h)
      refine ⟨item, rest, rfl, ?_, fun y => ?_⟩
      · rw [← hn.2, hm, nil_append, length_append]
      · have hsame : decodeOne (item ++ y) = decodeOne (item ++ rest) := (hall y).trans hx.symm
        rw [decodeElement_congr index hsame]
        exact h
    all_goals
      rw [hresult] at h
      cases h
  fatal {x err} h hfatal y := by
    rcases decodeElement_front index front x with ⟨element, m, -, hresult⟩ | ⟨-, hresult⟩ |
      ⟨need, -, hresult⟩ | ⟨err', hx, hresult⟩
    · rw [hresult] at h
      cases h
    · rw [hresult] at h
      cases h
      cases hfatal
    · rw [hresult] at h
      obtain rfl := Except.error.inj h
      rw [incompleteNeed_asksForMore] at hfatal
      cases hfatal
    · have hsame : decodeOne (x ++ y) = decodeOne x := (hone.fatal hx rfl y).trans hx.symm
      rw [decodeElement_congr index hsame]
      exact h
  hint {x err total} h htotal hlimit := by
    rcases decodeElement_front index front x with ⟨element, m, -, hresult⟩ | ⟨-, hresult⟩ |
      ⟨need, hx, hresult⟩ | ⟨err', -, hresult⟩
    · rw [hresult] at h
      cases h
    · rw [hresult] at h
      cases h
      cases htotal
    · have hmax : maxSlice = 2 ^ 63 := rfl
      have hresult' := hresult.symm.trans h
      obtain rfl := Except.error.inj hresult'
      rw [length_append] at hlimit ⊢
      obtain ⟨hlt, htop, hmore⟩ := hone.hint hx rfl (by rw [nil_append]; omega)
      rw [nil_append] at hlt
      obtain ⟨rfl, htop'⟩ := @incompleteNeed_some (front.length + need) (by omega) total htotal
      refine ⟨by omega, htop', fun y hy => ?_⟩
      rw [length_append] at hy
      have hsame : decodeOne (x ++ y) = decodeOne x :=
        (hmore y (by rw [nil_append]; omega)).trans hx.symm
      rw [decodeElement_congr index hsame]
      exact h
    · rw [hresult] at h
      cases h
      cases htotal

theorem stays_decodeElements (hone : Stays decodeOne []) (count : Nat) :
    ∀ (index : Nat) (front : Bytes),
      Stays (fun buf => decodeElements decodeOne buf count index front.length) front := by
  induction count with
  | zero => exact fun _ front => steady_ok [] front
  | succ count ih =>
    intro index front
    have hwhole := (stays_decodeElement hone index front).bind (g := fun element consumed buf =>
      decodeElements decodeOne buf count (index + 1) consumed >>= fun q => .ok (element :: q.1, q.2))
      fun item element _ => (ih (index + 1) (front ++ item)).bind
        (g := fun elements consumed _ => .ok (element :: elements, consumed))
        fun item' elements _ => steady_ok (element :: elements) (front ++ item ++ item')
    rwa [← funext fun buf => decodeElements_succ decodeOne buf count index front.length] at hwhole

/-- An array after its length. -/
def decodeArrayAfter (decodeOne : Bytes → Except DecodeError (Value × Nat)) (count : Int)
    (consumed : Nat) (buf : Bytes) : Except DecodeError (Value × Nat) :=
  if count = -1 then .ok (.array [] true, consumed)
  else if count < -1 then .error (.permanent (.invalidArrayLength count))
  else decodeElements decodeOne buf count.toNat 0 consumed >>= fun q => .ok (.array q.1 false, q.2)

theorem decodeArray_eq (decodeOne : Bytes → Except DecodeError (Value × Nat)) (buf : Bytes) :
    decodeArray decodeOne buf =
      decodeLength .arrayLength buf >>= fun p => decodeArrayAfter decodeOne p.1 p.2 buf :=
  rfl

theorem stays_decodeArray (hone : Stays decodeOne []) (marker : UInt8) :
    Stays (decodeArray decodeOne) [marker] := by
  refine (stays_decodeLength .arrayLength marker).bind (g := decodeArrayAfter decodeOne)
    fun item count _ => ?_
  refine .ite (fun _ => steady_ok _ _) fun _ => .ite (fun _ => steady_error rfl _) fun _ => ?_
  exact (stays_decodeElements hone count.toNat 0 _).bind
    (g := fun elements consumed _ => .ok (Value.array elements false, consumed))
    fun item' elements _ => steady_ok (Value.array elements false) _

end Elements

/-! ## Values -/

theorem decodeValue_nil (levels : Nat) : decodeValue levels [] = .error (.incomplete none) := by
  rw [decodeValue.eq_def]

/-- The markers of the values that are one line. -/
def lineMarkers : List UInt8 := [43, 45, 58, 35, 95]

theorem exists_fromLine {marker : UInt8} (h : marker ∈ lineMarkers) : ∃ fromLine, ∀ levels x,
    decodeValue levels (marker :: x) = decodeLineValue fromLine (marker :: x) := by
  simp only [lineMarkers, mem_cons, not_mem_nil, or_false] at h
  rcases h with rfl | rfl | rfl | rfl | rfl
  · exact ⟨fun line => .ok (.simpleString line), fun levels x => decodeValue.eq_def levels _⟩
  · exact ⟨fun line => .ok (.errorValue line), fun levels x => decodeValue.eq_def levels _⟩
  · exact ⟨integerFromLine, fun levels x => decodeValue.eq_def levels _⟩
  · exact ⟨booleanFromMarker, fun levels x => decodeValue.eq_def levels _⟩
  · exact ⟨nullFromPayload, fun levels x => decodeValue.eq_def levels _⟩

theorem decodeValue_unsupported {marker : UInt8} (hline : marker ∉ lineMarkers)
    (hbulk : marker ≠ 36) (harray : marker ≠ 42) (levels : Nat) (x : Bytes) :
    decodeValue levels (marker :: x) = .error (.permanent (.unsupportedPrefix marker)) := by
  simp only [lineMarkers, mem_cons, not_mem_nil, or_false, not_or] at hline
  rw [decodeValue.eq_def]
  simp only
  split <;> simp_all

theorem stays_level {levels : Nat}
    (hbelow : ∀ below, levels = below + 1 → Stays (decodeValue below) []) :
    Stays (decodeValue levels) [] := by
  have hmarked : ∀ marker, Stays (decodeValue levels) [marker] := by
    intro marker
    by_cases hline : marker ∈ lineMarkers
    · obtain ⟨fromLine, hfrom⟩ := exists_fromLine hline
      exact (stays_decodeLineValue fromLine marker).congr fun x => hfrom levels x
    by_cases hbulk : marker = 36
    · subst hbulk
      exact (stays_decodeBulkString 36).congr fun x => decodeValue.eq_def levels _
    by_cases harray : marker = 42
    · subst harray
      cases levels with
      | zero =>
        have hsteady : @Stays Value (fun _ => .error (.permanent .nestingExceedsLimit)) [42] :=
          steady_error rfl [42]
        refine hsteady.congr fun x => ?_
        rw [decodeValue.eq_def]
        rfl
      | succ levels =>
        refine (stays_decodeArray (hbelow levels rfl) 42).congr fun x => ?_
        rw [decodeValue.eq_def]
        rfl
    exact Steady.congr (steady_error rfl [marker])
      fun x => decodeValue_unsupported hline hbulk harray levels x
  constructor
  · intro x value n h
    cases x with
    | nil =>
      rw [nil_append, decodeValue_nil] at h
      cases h
    | cons marker x =>
      obtain ⟨item, rest, rfl, hn, hall⟩ := (hmarked marker).ok h
      exact ⟨marker :: item, rest, rfl, hn, hall⟩
  · intro x err h hfatal y
    cases x with
    | nil =>
      rw [nil_append, decodeValue_nil] at h
      cases h
      cases hfatal
    | cons marker x => exact (hmarked marker).fatal h hfatal y
  · intro x err total h htotal hlimit
    cases x with
    | nil =>
      rw [nil_append, decodeValue_nil] at h
      cases h
      cases htotal
    | cons marker x => exact (hmarked marker).hint h htotal hlimit

/-- **The decoder never changes its mind.** -/
theorem stays_decodeValue (levels : Nat) : Stays (decodeValue levels) [] := by
  induction levels with
  | zero => exact stays_level fun below h => by cases h
  | succ levels ih =>
    refine stays_level fun below h => ?_
    obtain rfl := Nat.succ.inj h
    exact ih

theorem stays_decode : Stays decode [] :=
  stays_decodeValue maxNestingDepth

theorem decode_nil : decode [] = .error (.incomplete none) :=
  decodeValue_nil maxNestingDepth

theorem decode_pos {buf : Bytes} {value : Value} {n : Nat} (h : decode buf = .ok (value, n)) :
    0 < n := by
  refine Nat.pos_of_ne_zero ?_
  rintro rfl
  have hnil := stays_decode.take h []
  rw [take_zero, append_nil, decode_nil] at hnil
  cases hnil

theorem eq_incomplete {err : DecodeError} (h : err.asksForMore = true) :
    ∃ need, err = .incomplete need := by
  cases err with
  | incomplete need => exact ⟨need, rfl⟩
  | permanent err => cases h

/-- **The verdict on a buffer is final.**  A value is that of its own bytes, whatever follows them,
and every proper part of them is incomplete; a malformed frame stays malformed, with the same error;
and no complete frame is a proper part of another. -/
theorem decode_stable (b s : Bytes) :
    (∀ value n, decode b = .ok (value, n) →
      0 < n ∧ n ≤ b.length ∧ decode (b.take n ++ s) = .ok (value, n) ∧
        decode (b ++ s) = .ok (value, n) ∧
          ∀ k < n, ∃ need, decode (b.take k) = .error (.incomplete need)) ∧
    (∀ err, decode b = .error (.permanent err) → decode (b ++ s) = .error (.permanent err)) ∧
    (∀ value value', decode b = .ok (value, b.length) →
      decode (b ++ s) = .ok (value', (b ++ s).length) → s = []) := by
  refine ⟨fun value n h => ?_, fun err h => stays_decode.fatal h rfl s, fun value value' h h' => ?_⟩
  · refine ⟨decode_pos h, stays_decode.le_length h, stays_decode.take h s, stays_decode.append h s,
      fun k hk => ?_⟩
    obtain ⟨err, herr, hasks⟩ := stays_decode.cut h hk
    obtain ⟨need, rfl⟩ := eq_incomplete hasks
    exact ⟨need, herr⟩
  · -- the shorter frame is read from the longer one, too
    rw [stays_decode.append h s] at h'
    have hlength : b.length = (b ++ s).length := congrArg Prod.snd (Except.ok.inj h')
    rw [length_append] at hlength
    exact eq_nil_of_length_eq_zero (by omega)

/-- A bulk string whose payload contains a line end. -/
theorem decode_stable_bulk :
    (∃ value, decode (ascii "$4\r\na\r\nb\r\n:7") = .ok (value, 10)) ∧
      ∀ k < 10, ∃ need, decode ((ascii "$4\r\na\r\nb\r\n:7").take k) = .error (.incomplete need) := by
  have hvalue : decode (ascii "$4\r\na\r\nb\r\n:7") = .ok (.bulkString (ascii "a\r\nb") false, 10) := rfl
  exact ⟨⟨_, hvalue⟩, ((decode_stable _ []).1 _ _ hvalue).2.2.2.2⟩

/-! ## Machine integers -/

/-- What `decodeBulkString` computes in machine integers behind its length line: it slices and
indexes in range, and no result differs from the number `decodeBulkString` has here. -/
structure BulkOffsets (b : Bytes) (length : Int) (consumed : Nat) : Prop where
  slice : consumed ≤ b.length
  room : wrap64 ((b.drop consumed).length - 2) = (b.drop consumed).length - 2
  total : incompleteNeed (wrap64 (wrap64 (consumed + length) + 2)) =
    incompleteNeed (consumed + length + 2)
  terminator : length ≤ (b.drop consumed).length - 2 →
    wrap64 (length + 1) = length + 1 ∧ length + 1 < (b.drop consumed).length
  frame : length ≤ (b.drop consumed).length - 2 →
    wrap64 (wrap64 (consumed + length) + 2) = consumed + length + 2

/-- The same for the next element of `decodeArray`. -/
structure ElementOffsets (levels : Nat) (b : Bytes) (consumed : Nat) : Prop where
  next : ∀ value n, decodeValue levels (b.drop consumed) = .ok (value, n) →
    wrap64 ((consumed : Int) + n) = (consumed + n : Nat) ∧ consumed + n ≤ b.length
  total : ∀ need : Nat, incompleteNeed (wrap64 (consumed + need)) = incompleteNeed (consumed + need)

theorem incompleteNeed_wrap64 (total : Int) :
    incompleteNeed (wrap64 total) = incompleteNeed total := by
  have hwrap : wrap64 (wrap64 total) = wrap64 total := Int.bmod_bmod
  simp only [incompleteNeed, hwrap]

variable {b : Bytes} {consumed : Nat}

theorem decodeLength_le {context : ErrorContext} (hne : b ≠ []) {length : Int}
    (h : decodeLength context b = .ok (length, consumed)) : consumed ≤ b.length := by
  obtain ⟨marker, x, rfl⟩ := exists_cons_of_ne_nil hne
  obtain ⟨item, rest, rfl, rfl, -⟩ := (stays_decodeLength context marker).ok h
  simp

theorem bulkOffsets (hb : b.length < maxSlice) {length : Int} (hlength : 0 ≤ length)
    (hslice : consumed ≤ b.length) : BulkOffsets b length consumed := by
  have hmax : maxSlice = 2 ^ 63 := rfl
  have hrest : (b.drop consumed).length = b.length - consumed := length_drop
  have hsum : wrap64 (wrap64 (consumed + length) + 2) = wrap64 (consumed + length + 2) :=
    Int.bmod_add_bmod
  refine ⟨hslice, wrap64_of_inInt64 ⟨by omega, by omega⟩, ?_, fun hfits => ?_, fun hfits => ?_⟩
  · rw [hsum, incompleteNeed_wrap64]
  · exact ⟨wrap64_of_inInt64 ⟨by omega, by omega⟩, by omega⟩
  · exact hsum.trans (wrap64_of_inInt64 ⟨by omega, by omega⟩)

theorem elementOffsets (levels : Nat) (hb : b.length < maxSlice)
    (hslice : consumed ≤ b.length) : ElementOffsets levels b consumed := by
  have hmax : maxSlice = 2 ^ 63 := rfl
  refine ⟨fun value n h => ?_, fun need => incompleteNeed_wrap64 _⟩
  have hn := (stays_decodeValue levels).le_length h
  rw [length_drop] at hn
  exact ⟨wrap64_of_inInt64 ⟨by omega, by omega⟩, by omega⟩

/-- **A hint is a true lower bound.**  An incomplete frame that needs `need` bytes is shorter than
that, and it stays incomplete as long as it is.  In every slice, also in those of the elements, what
a bulk string and an array compute with a declared length is in range and does not wrap around, but
for the hint itself, which is then withheld. -/
theorem decode_hint (b : Bytes) (hb : b.length < maxSlice) :
    (∀ need, decode b = .error (.incomplete (some need)) →
      b.length < need ∧ ∀ s, (b ++ s).length < need →
        ∃ need', decode (b ++ s) = .error (.incomplete need')) ∧
    (∀ length consumed, b ≠ [] → decodeLength .bulkLength b = .ok (length, consumed) → 0 ≤ length →
      BulkOffsets b length consumed) ∧
    (∀ count consumed, b ≠ [] → decodeLength .arrayLength b = .ok (count, consumed) →
      consumed ≤ b.length) ∧
    ∀ levels consumed, consumed ≤ b.length → ElementOffsets levels b consumed := by
  refine ⟨fun need h => ?_, fun length consumed hne h hlength => ?_,
    fun count consumed hne h => decodeLength_le hne h,
    fun levels consumed hslice => elementOffsets levels hb hslice⟩
  · obtain ⟨hshort, -, hwaits⟩ := stays_decode.hint h rfl hb
    exact ⟨hshort, fun s hs => ⟨_, hwaits s hs⟩⟩
  · exact bulkOffsets hb hlength (decodeLength_le hne h)

/-- A payload of nine bytes of which two are there. -/
theorem decode_hint_bulk :
    decode (ascii "$9\r\nab") = .error (.incomplete (some 15)) ∧
      ∀ s, (ascii "$9\r\nab" ++ s).length < 15 →
        ∃ need, decode (ascii "$9\r\nab" ++ s) = .error (.incomplete need) := by
  have hwaits : decode (ascii "$9\r\nab") = .error (.incomplete (some 15)) := rfl
  exact ⟨hwaits, ((decode_hint _ (by decide)).1 15 hwaits).2⟩

end Stash
