import Stash.DecodeStable

/-!
# The size of a request

A frame may be longer than the encoding of the value it holds (a length may be written with a sign or
with leading zeros), but never shorter.  So the encoded size of the requests parsed from an input is
bounded by the bytes they were parsed from.
-/

namespace Stash

open DecimalText Incremental Value

variable {buf line : Bytes} {n : Nat} {value : Value}

theorem decodeLine_length {content : Bytes} (h : decodeLine buf = .ok (content, n)) :
    n = content.length + 2 := by
  unfold decodeLine at h
  split at h
  · cases h
  · rename_i idx hidx
    obtain ⟨content', htrim, hresult⟩ := bind_ok h
    cases hresult
    have hline := congrArg List.length (trimCRLF_ok (mapError_ok htrim))
    have hlt := (List.findIdx?_eq_some_iff_getElem.mp hidx).1
    rw [List.length_take, List.length_append] at hline
    have hcrlf : crlf.length = 2 := rfl
    omega

theorem encodedLen_decodeLineValue {fromLine : Bytes → Except ParseError Value}
    (hfrom : ∀ line value, fromLine line = .ok value → value.encodedLen ≤ 1 + line.length + 2)
    (h : decodeLineValue fromLine buf = .ok (value, n)) : value.encodedLen ≤ n := by
  unfold decodeLineValue at h
  obtain ⟨⟨line, k⟩, hline, h⟩ := bind_ok h
  obtain ⟨value', hvalue, hresult⟩ := bind_ok h
  obtain ⟨rfl, rfl⟩ := Prod.mk.inj (Except.ok.inj hresult)
  have hlength := decodeLine_length hline
  have hle := hfrom line value' (mapError_ok hvalue)
  omega

theorem decodeLength_length {context : ErrorContext} {length : Int} {consumed : Nat}
    (h : decodeLength context buf = .ok (length, consumed)) :
    1 + (formatInt length).length + 2 ≤ consumed := by
  unfold decodeLength at h
  obtain ⟨⟨line, k⟩, hline, h⟩ := bind_ok h
  obtain ⟨length', hlength, hresult⟩ := bind_ok h
  obtain ⟨rfl, rfl⟩ := Prod.mk.inj (Except.ok.inj hresult)
  have hread := ((parseDecimalInt_ok_iff line length').mp (mapError_ok hlength)).1
  have hle := length_formatInt_le_of_readInt hread
  have hk := decodeLine_length hline
  omega

theorem encodedLen_decodeBulkString
    (h : decodeBulkString buf = .ok (value, n)) : value.encodedLen ≤ n := by
  rw [decodeBulkString_eq] at h
  obtain ⟨⟨length, consumed⟩, hlength, h⟩ := bind_ok h
  have hline := decodeLength_length hlength
  unfold decodeBulkAfter at h
  by_cases hnull : length = -1
  · rw [if_pos hnull] at h
    cases h
    subst hnull
    exact hline
  · rw [if_neg hnull] at h
    split at h
    · cases h
    · unfold decodePayload at h
      simp only at h
      split at h
      · cases h
      · split at h
        · cases h
          have htake : ((buf.drop consumed).take length.toNat).length = length.toNat := by
            rw [List.length_take]
            omega
          have hcast : (length.toNat : Int) = length := by omega
          simp only [encodedLen, Bool.false_eq_true, if_false, htake, hcast]
          omega
        · cases h

section Elements

variable {decodeOne : Bytes → Except DecodeError (Value × Nat)}

theorem encodedLen_decodeElements
    (hone : ∀ {buf value n}, decodeOne buf = .ok (value, n) → value.encodedLen ≤ n) {buf : Bytes}
    {count index consumed : Nat} {elements : List Value} {n : Nat}
    (h : decodeElements decodeOne buf count index consumed = .ok (elements, n)) :
    elements.length = count ∧ consumed + encodedLenAll elements ≤ n := by
  induction count generalizing index consumed elements n with
  | zero =>
    cases h
    exact ⟨rfl, le_refl _⟩
  | succ count ih =>
    rw [decodeElements_succ] at h
    obtain ⟨⟨element, consumed'⟩, helement, h⟩ := bind_ok h
    obtain ⟨⟨rest, consumed''⟩, hrest, hresult⟩ := bind_ok h
    cases hresult
    obtain ⟨hlength, hle⟩ := ih hrest
    have hfirst : consumed + element.encodedLen ≤ consumed' := by
      unfold decodeElement at helement
      split at helement
      · cases helement
      · cases helement
      · cases helement
      · rename_i hdecode
        cases helement
        exact Nat.add_le_add_left (hone hdecode) consumed
    refine ⟨congrArg (· + 1) hlength, ?_⟩
    simp only [encodedLenAll]
    omega

theorem encodedLen_decodeArray
    (hone : ∀ {buf value n}, decodeOne buf = .ok (value, n) → value.encodedLen ≤ n) {buf : Bytes}
    {value : Value} {n : Nat} (h : decodeArray decodeOne buf = .ok (value, n)) :
    value.encodedLen ≤ n := by
  rw [decodeArray_eq] at h
  obtain ⟨⟨count, consumed⟩, hcount, h⟩ := bind_ok h
  have hline := decodeLength_length hcount
  unfold decodeArrayAfter at h
  by_cases hnull : count = -1
  · rw [if_pos hnull] at h
    cases h
    subst hnull
    exact hline
  · rw [if_neg hnull] at h
    split at h
    · cases h
    · obtain ⟨⟨elements, consumed'⟩, helements, hresult⟩ := bind_ok h
      cases hresult
      obtain ⟨hlength, hle⟩ := encodedLen_decodeElements hone helements
      have hcast : (elements.length : Int) = count := by omega
      simp only [encodedLen, Bool.false_eq_true, if_false, hcast]
      omega

end Elements

theorem encodedLen_integerFromLine (h : integerFromLine line = .ok value) :
    value.encodedLen ≤ 1 + line.length + 2 := by
  unfold integerFromLine at h
  split at h
  · rename_i v hparse
    cases h
    have hle := length_formatInt_le_of_readInt ((parseIntBytes_ok_iff line v).mp hparse)
    simp only [encodedLen]
    omega
  · cases h

theorem encodedLen_booleanFromMarker
    (h : booleanFromMarker line = .ok value) : value.encodedLen ≤ 1 + line.length + 2 := by
  unfold booleanFromMarker at h
  split at h
  · rename_i hline
    cases h
    rw [hline]
    decide
  · split at h
    · rename_i hline
      cases h
      rw [hline]
      decide
    · cases h

theorem encodedLen_nullFromPayload (h : nullFromPayload line = .ok value) :
    value.encodedLen ≤ 1 + line.length + 2 := by
  unfold nullFromPayload at h
  split at h
  · cases h
    simp only [encodedLen]
    omega
  · cases h

theorem encodedLen_level {levels : Nat}
    (hbelow : ∀ {below : Nat}, levels = below + 1 → ∀ {buf value n},
      decodeValue below buf = .ok (value, n) → value.encodedLen ≤ n)
    (h : decodeValue levels buf = .ok (value, n)) : value.encodedLen ≤ n := by
  cases buf with
  | nil =>
    rw [decodeValue_nil] at h
    cases h
  | cons marker x =>
    rw [decodeValue.eq_def] at h
    simp only at h
    split at h
    · refine encodedLen_decodeLineValue (fun line value hvalue => ?_) h
      cases hvalue
      exact le_refl _
    · refine encodedLen_decodeLineValue (fun line value hvalue => ?_) h
      cases hvalue
      exact le_refl _
    · exact encodedLen_decodeLineValue (fun _ _ => encodedLen_integerFromLine) h
    · exact encodedLen_decodeLineValue (fun _ _ => encodedLen_booleanFromMarker) h
    · exact encodedLen_decodeLineValue (fun _ _ => encodedLen_nullFromPayload) h
    · exact encodedLen_decodeBulkString h
    · cases levels with
      | zero => cases h
      | succ levels => exact encodedLen_decodeArray (hbelow rfl) h
    · cases h

/-- **A frame is at least as long as the encoding of its value.** -/
theorem encodedLen_decodeValue {levels : Nat}
    (h : decodeValue levels buf = .ok (value, n)) : value.encodedLen ≤ n := by
  induction levels generalizing buf value n with
  | zero => exact encodedLen_level (fun hzero => absurd hzero (Nat.succ_ne_zero _).symm) h
  | succ levels ih =>
    refine encodedLen_level (fun hsucc => ?_) h
    obtain rfl := Nat.succ.inj hsucc
    exact ih

/-- The frames of an input are no longer than the input. -/
theorem encodedLenAll_drains {x : Bytes} {values : List Value} {rest : Bytes} {err : DecodeError}
    (h : Drains decode x values rest err) : encodedLenAll values + rest.length ≤ x.length := by
  induction h with
  | stop _ => simp [encodedLenAll]
  | value h _ ih =>
    have hvalue := encodedLen_decodeValue h
    have hle := stays_decode.le_length h
    rw [List.length_drop] at ih
    simp only [encodedLenAll]
    omega

end Stash
