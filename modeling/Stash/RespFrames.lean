import Stash.RespParser
import Mathlib.Data.List.Infix

/-!
# Reading command frames back

The frames the server writes to its log and to its replicas are flat arrays of bulk strings.  The
parser reads such a frame back exactly when the frame is within its limits, and refuses it for
good otherwise.  A frame cut off in the middle is never read as it stands; if other frames
follow the cut, it can only be read as a frame that begins with the torn bytes, the rest of a
payload being taken from what follows.
-/

namespace Stash

open DecimalText List Value

/-! ## Headers -/

theorem parseDecimalInt_ok_iff (raw : Bytes) (z : Int) :
    parseDecimalInt raw = .ok z ↔ readInt raw = some z ∧ -2 ^ 63 ≤ z ∧ z < 2 ^ 63 := by
  unfold parseDecimalInt
  constructor
  · intro h
    cases hp : parseIntBytes raw with
    | error err => simp [hp, Except.map] at h
    | ok v =>
      simp only [hp, Except.map, Except.ok.injEq] at h
      subst h
      exact ⟨(parseIntBytes_ok_iff raw v).mp hp, v.le_toInt, v.toInt_lt⟩
  · rintro ⟨hread, hlo, hhi⟩
    have hv : (Int64.ofInt z).toInt = z := Int64.toInt_ofInt_of_le hlo hhi
    rw [(parseIntBytes_ok_iff raw (Int64.ofInt z)).mpr (by rw [hv]; exact hread)]
    simp only [Except.map, hv]

theorem newline_notMem_formatInt (z : Int) : 10 ∉ formatInt z := by
  intro h
  rcases mem_formatInt h with h | h
  · exact absurd h (by decide)
  · exact absurd h (by decide)

variable {line data p : Bytes} {z : Int} {err : ParseError} {n : Nat} {tokens : List Bytes}

theorem readInt_eq_none_of_mem_star (h : 42 ∈ line) : readInt line = none := by
  have hnat : ∀ ds : Bytes, 42 ∈ ds → readNat ds = none := by
    intro ds hds
    rw [readNat, if_neg]
    rintro ⟨-, hall⟩
    exact absurd (all_eq_true.mp hall 42 hds) (by decide)
  cases line with
  | nil => rfl
  | cons first rest =>
    have hrest : first = 45 ∨ first = 43 → 42 ∈ rest := by
      rintro (rfl | rfl) <;> simpa using h
    simp only [readInt]
    split
    · rename_i hf
      rw [hnat rest (hrest (.inl hf))]
      rfl
    · split
      · rename_i hf
        rw [hnat rest (hrest (.inr hf))]
        rfl
      · rw [hnat _ h]
        rfl

variable (levels : Nat) (context : ErrorContext) (rest : Bytes)

/-- A length header that is not too long for a line is read as its number. -/
theorem readLineBytes_formatInt (h : z.natAbs < 10 ^ 20) :
    readLineBytes (formatInt z ++ (crlf ++ rest)) = .ok (formatInt z, rest) := by
  have hlen := length_formatInt_le (by omega) h
  have hmax : maxOpenLine = 69632 := rfl
  exact readLineBytes_content rest (newline_notMem_formatInt z) (by omega)

theorem readLineBytes_formatInt_cases (z : Int) (rest : Bytes) :
    readLineBytes (formatInt z ++ (crlf ++ rest)) = .ok (formatInt z, rest) ∨
      readLineBytes (formatInt z ++ (crlf ++ rest)) = .error .lineExceedsLimit := by
  have hnl := newline_notMem_formatInt z
  by_cases hlen : (formatInt z).length + 1 < maxOpenLine
  · exact .inl (readLineBytes_content rest hnl hlen)
  · have hsplit : formatInt z ++ (crlf ++ rest) = (formatInt z ++ [13]) ++ 10 :: rest := by
      simp [crlf]
    rw [hsplit, readLineBytes_line_eq rest (by simp [hnl]), if_neg (by simpa using hlen)]
    exact .inr rfl

theorem parseDecimalInt_formatInt (hlo : -2 ^ 63 ≤ z) (hhi : z < 2 ^ 63) :
    parseDecimalInt (formatInt z) = .ok z :=
  (parseDecimalInt_ok_iff _ _).mpr ⟨readInt_formatInt z, hlo, hhi⟩

theorem parseIntDigits_error_eq (cutoff cutlim : UInt64) :
    ∀ (raw : Bytes) (value : UInt64), parseIntDigits cutoff cutlim value raw = .error err →
      err = .invalidSyntax ∨ err = .valueRange
  | [], _, h => by simp [parseIntDigits] at h
  | digit :: raw, value, h => by
    rw [parseIntDigits] at h
    split at h
    · exact .inl (by simpa using h.symm)
    · simp only at h
      split at h
      · exact .inr (by simpa using h.symm)
      · exact parseIntDigits_error_eq cutoff cutlim raw _ h

theorem parseIntMagnitude_error_eq {negative : Bool} {raw : Bytes}
    (h : parseIntMagnitude negative raw = .error err) :
    err = .invalidSyntax ∨ err = .valueRange := by
  simp only [parseIntMagnitude] at h
  split at h
  · rename_i herr
    exact (Except.error.inj h) ▸ parseIntDigits_error_eq _ _ raw 0 herr
  · split at h
    · split at h <;> simp at h
    · simp at h

theorem parseDecimalInt_error_eq {raw : Bytes}
    (h : parseDecimalInt raw = .error err) : err = .invalidSyntax ∨ err = .valueRange := by
  unfold parseDecimalInt at h
  cases hp : parseIntBytes raw with
  | ok v => simp [hp, Except.map] at h
  | error err' =>
    simp only [hp, Except.map, Except.error.injEq] at h
    subst h
    cases raw with
    | nil => exact .inl (by simpa [parseIntBytes] using hp.symm)
    | cons first rest =>
      rw [parseIntBytes] at hp
      split at hp
      · split at hp
        · exact .inl (by simpa using hp.symm)
        · exact parseIntMagnitude_error_eq hp
      · exact parseIntMagnitude_error_eq hp

theorem integerFromLine_error {line : Bytes} (h : integerFromLine line = .error err) :
    err = .wrap .parseInteger .invalidSyntax ∨ err = .wrap .parseInteger .valueRange := by
  unfold integerFromLine at h
  cases hline : parseIntBytes line with
  | ok n => simp [hline] at h
  | error err' =>
    simp only [hline, Except.error.injEq] at h
    subst h
    rcases @parseDecimalInt_error_eq _ line (by rw [parseDecimalInt, hline]; rfl) with rfl | rfl
    · exact .inl rfl
    · exact .inr rfl

theorem booleanFromMarker_error {line : Bytes} (h : booleanFromMarker line = .error err) :
    err = .invalidBooleanMarker line := by
  unfold booleanFromMarker at h
  split at h
  · cases h
  · split at h <;> cases h
    rfl

theorem nullFromPayload_error {line : Bytes} (h : nullFromPayload line = .error err) :
    err = .invalidNullPayload line := by
  unfold nullFromPayload at h
  split at h <;> cases h
  rfl

/-- A step of the parser that goes wrong, and not as a truncation. -/
def Refused {α : Type} (result : Except ParseError α) : Prop :=
  ∃ err, result = .error err ∧ isRecoverableTruncation err = false

theorem readLength_formatInt {n : Nat} (rest : Bytes) (hn : n < 2 ^ 63) :
    readLength context (formatInt n ++ (crlf ++ rest)) = .ok ((n : Int), rest) := by
  have hint : parseDecimalInt (formatInt n) = .ok n :=
    parseDecimalInt_formatInt (by omega) (by omega)
  rw [readLength, readLineBytes_formatInt rest (by rw [Int.natAbs_natCast]; omega)]
  simp only [bind, Except.bind, hint, Except.mapError, pure, Except.pure]

/-- **A length header is read as its number, or the frame is refused for good.**  The second case
is that of a header too long for a line and of a number outside the integers of the machine. -/
theorem readLength_cases (n : Nat) (rest : Bytes) :
    readLength context (formatInt n ++ (crlf ++ rest)) = .ok ((n : Int), rest) ∨
      Refused (readLength context (formatInt n ++ (crlf ++ rest))) := by
  by_cases hn : n < 2 ^ 63
  · exact .inl (readLength_formatInt context rest hn)
  · right
    rw [readLength]
    rcases readLineBytes_formatInt_cases n rest with hline | hline
    · rw [hline]
      cases hp : parseDecimalInt (formatInt n) with
      | ok z =>
        obtain ⟨hread, -, hhi⟩ := (parseDecimalInt_ok_iff _ _).mp hp
        rw [readInt_formatInt, Option.some.injEq] at hread
        omega
      | error err =>
        refine ⟨.wrap context err, ?_, ?_⟩
        · simp [bind, Except.bind, Except.mapError, hp]
        · rcases parseDecimalInt_error_eq hp with rfl | rfl <;> rfl
    · rw [hline]
      exact ⟨.lineExceedsLimit, rfl, rfl⟩

variable {input : Bytes}

/-- A length that was read stands in a line. -/
theorem readLength_ok {context : ErrorContext} {rest : Bytes}
    (h : readLength context input = .ok (z, rest)) :
    ∃ header, input = header ++ (crlf ++ rest) ∧ parseDecimalInt header = .ok z ∧ 10 ∉ header ∧
      header.length + 1 < maxOpenLine := by
  obtain ⟨⟨header, rest'⟩, hline, h⟩ := bind_ok h
  obtain ⟨z', hz, h⟩ := bind_ok h
  cases h
  obtain ⟨rfl, hnewline, hlen⟩ := readLineBytes_ok hline
  exact ⟨header, rfl, mapError_ok hz, hnewline, hlen⟩

/-- A prefix of two texts ends in the first or contains it. -/
theorem prefix_append_cases {α : Type} {p a b : List α} (h : p <+: a ++ b) :
    p <+: a ∨ ∃ q, p = a ++ q ∧ q <+: b := by
  rcases prefix_or_prefix_of_prefix h (prefix_append a b) with hp | ⟨q, rfl⟩
  · exact .inl hp
  · exact .inr ⟨q, rfl, (prefix_append_right_inj a).mp h⟩

/-- A torn header line, or the header and a part of what it announces. -/
theorem header_prefix_cases {body : Bytes} (hp : p <+: formatInt z ++ (crlf ++ body)) :
    p <+: formatInt z ++ [13] ∨ ∃ q, p = formatInt z ++ (crlf ++ q) ∧ q <+: body := by
  have hsplit : formatInt z ++ (crlf ++ body) = (formatInt z ++ [13]) ++ ([10] ++ body) := by
    simp [crlf]
  rw [hsplit] at hp
  rcases prefix_append_cases hp with hline | ⟨q, rfl, hq⟩
  · exact .inl hline
  · cases q with
    | nil => exact .inl (by simp)
    | cons b q =>
      obtain ⟨rfl, hq⟩ := cons_prefix_cons.mp hq
      exact .inr ⟨q, by simp [crlf], by simpa using hq⟩

/-- A line cut short and continued by a star is no number. -/
theorem readLength_torn {context : ErrorContext} (hline : p <+: formatInt z ++ [13]) (more : Bytes)
    {result : Int × Bytes} : readLength context (p ++ 42 :: more) ≠ .ok result := by
  intro h
  obtain ⟨header, hinput, hnumber, -, -⟩ := readLength_ok h
  have hnl : 10 ∉ p := fun hmem => by
    simpa [newline_notMem_formatInt z] using hline.subset hmem
  rcases append_eq_append_iff.mp hinput with ⟨text, rfl, htext⟩ | ⟨text, rfl, htext⟩
  · -- the star is in the line
    cases text with
    | nil => simp [crlf] at htext
    | cons b text =>
      obtain ⟨rfl, -⟩ := List.cons.inj htext
      have hread := ((parseDecimalInt_ok_iff _ _).mp hnumber).1
      rw [readInt_eq_none_of_mem_star (by simp)] at hread
      cases hread
  · -- the line would end in front of the star
    match text, htext with
    | [], htext => simp [crlf] at htext
    | [b], htext => simp [crlf] at htext
    | b :: c :: text, htext =>
      simp only [crlf, cons_append, List.cons.injEq] at htext
      exact hnl (by simp [← htext.2.1])

/-- **A part of a header and a body, continued by a star, is read as a number only if it is the
whole header.** -/
theorem readLength_part {context : ErrorContext} {body more : Bytes}
    (hp : p <+: formatInt z ++ (crlf ++ body)) {w : Int} {after : Bytes}
    (h : readLength context (p ++ 42 :: more) = .ok (w, after)) :
    w = z ∧ ∃ q, p = formatInt z ++ (crlf ++ q) ∧ q <+: body ∧ after = q ++ 42 :: more := by
  rcases header_prefix_cases hp with hline | ⟨q, rfl, hq⟩
  · exact absurd h (readLength_torn hline more)
  · obtain ⟨⟨line, after'⟩, hread, h⟩ := bind_ok h
    obtain ⟨w', hw, h⟩ := bind_ok h
    cases h
    rw [append_assoc, append_assoc] at hread
    rcases readLineBytes_formatInt_cases z (q ++ 42 :: more) with hline | hline
    · cases hline.symm.trans hread
      have hread := ((parseDecimalInt_ok_iff _ _).mp (mapError_ok hw)).1
      rw [readInt_formatInt] at hread
      exact ⟨(Option.some.inj hread).symm, q, rfl, hq, rfl⟩
    · cases hline.symm.trans hread

/-! ## Bulk strings -/

theorem readFull_append (payload rest : Bytes) :
    readFull payload.length (payload ++ rest) = .ok (payload, rest) := by
  simp [readFull]

theorem expectCRLF_crlf : expectCRLF (crlf ++ rest) = .ok rest := by
  simp [expectCRLF, crlf]

theorem parseBulkString_of_length {rest : Bytes}
    (hlength : readLength .bulkLength input = .ok ((n : Int), rest)) :
    parseBulkString input =
      if n ≤ maxBulkStringLength then do
        let (payload, rest) ← (readFull n rest).mapError (ParseError.wrap .bulkPayload)
        let rest ← (expectCRLF rest).mapError (ParseError.wrap .bulkTerminator)
        return (.bulkString payload false, rest) else .error (.bulkLengthExceedsLimit n) := by
  simp only [parseBulkString, hlength, bind, Except.bind]
  rw [if_neg (by omega), if_neg (by omega)]
  by_cases hn : n ≤ maxBulkStringLength
  · rw [if_neg (by omega), if_pos hn, Int.toNat_natCast]
  · rw [if_pos (by omega), if_neg hn]

theorem parseBulkString_encode (hdata : data.length ≤ maxBulkStringLength) :
    parseBulkString (formatInt data.length ++ (crlf ++ (data ++ (crlf ++ rest)))) =
      .ok (bulk data, rest) := by
  have hmax : maxBulkStringLength = 536870912 := rfl
  rw [parseBulkString_of_length (readLength_formatInt .bulkLength _ (by omega)), if_pos hdata,
    readFull_append]
  simp only [Except.mapError, bind, Except.bind, expectCRLF_crlf, pure, Except.pure, bulk]

/-- A bulk string over the limit is refused. -/
theorem parseBulkString_exceeds (hn : maxBulkStringLength < n) :
    Refused (parseBulkString (formatInt n ++ (crlf ++ rest))) := by
  rcases readLength_cases .bulkLength n rest with h | ⟨err, h, herr⟩
  · rw [parseBulkString_of_length h, if_neg (by omega)]
    exact ⟨_, rfl, rfl⟩
  · exact ⟨err, by simp [parseBulkString, h, bind, Except.bind], herr⟩

theorem readFull_ok {payload rest : Bytes} (h : readFull n input = .ok (payload, rest)) :
    input = payload ++ rest ∧ payload.length = n := by
  unfold readFull at h
  split at h
  · rename_i hlen
    cases h
    exact ⟨(take_append_drop n input).symm, length_take_of_le hlen⟩
  · split at h <;> cases h

theorem expectCRLF_ok {rest : Bytes} (h : expectCRLF input = .ok rest) : input = crlf ++ rest := by
  unfold expectCRLF at h
  split at h
  · split at h
    · rename_i hcrlf
      cases h
      rw [hcrlf.1, hcrlf.2]
      rfl
    · cases h
  · cases h

/-- A bulk string that was read: its length, its payload and the terminator. -/
theorem parseBulkString_ok {token rest : Bytes}
    (h : parseBulkString input = .ok (bulk token, rest)) :
    readLength .bulkLength input = .ok ((token.length : Int), token ++ (crlf ++ rest)) := by
  obtain ⟨⟨length, after⟩, hlength, h⟩ := bind_ok h
  simp only at h
  split at h
  · simp [bulk] at h
  split at h
  · cases h
  split at h
  · cases h
  obtain ⟨⟨payload, after'⟩, hpayload, h⟩ := bind_ok h
  obtain ⟨after'', hend, h⟩ := bind_ok h
  simp only [pure, Except.pure, bulk, Except.ok.injEq, Prod.mk.injEq, bulkString.injEq] at h
  obtain ⟨⟨rfl, -⟩, rfl⟩ := h
  obtain ⟨rfl, hlen⟩ := readFull_ok (mapError_ok hpayload)
  rw [hlength, hlen, ← expectCRLF_ok (mapError_ok hend), Int.toNat_of_nonneg (by omega)]

/-! ## Command frames -/

theorem parseValue_encodeBulk (hdata : data.length ≤ maxBulkStringLength) :
    parseValue levels (encodeBulk data ++ rest) = .ok (bulk data, rest) := by
  have := parseBulkString_encode rest hdata
  simpa [parseValue, encodeBulk, appendPrefixedIntLine] using this

theorem parseValue_encodeBulk_exceeds (hdata : maxBulkStringLength < data.length) :
    Refused (parseValue levels (encodeBulk data ++ rest)) := by
  have := parseBulkString_exceeds (data ++ (crlf ++ rest)) hdata
  simpa [parseValue, encodeBulk, appendPrefixedIntLine] using this

/-- The frame is within the limits of the parser. -/
def WithinLimits (tokens : List Bytes) : Prop :=
  tokens.length ≤ maxArrayElements ∧ ∀ token ∈ tokens, token.length ≤ maxBulkStringLength

instance (tokens : List Bytes) : Decidable (WithinLimits tokens) :=
  inferInstanceAs (Decidable (_ ∧ _))

theorem recoverable_wrap (err : ParseError) :
    isRecoverableTruncation (.wrap context err) = isRecoverableTruncation err := by
  simp [isRecoverableTruncation, ParseError.is]

theorem parseElements_length {parseOne : Bytes → Except ParseError (Value × Bytes)} {rest : Bytes} :
    ∀ {count index : Nat} {input : Bytes} {values : List Value},
      parseElements parseOne count index input = .ok (values, rest) → values.length = count
  | 0, _, _, _, h => by
    simp only [parseElements, Except.ok.injEq, Prod.mk.injEq] at h
    simp [← h.1]
  | count + 1, index, input, values, h => by
    rw [parseElements] at h
    cases hfirst : parseOne input with
    | error err => simp [hfirst, Except.mapError, bind, Except.bind] at h
    | ok first =>
      simp only [hfirst, Except.mapError, bind, Except.bind] at h
      cases hothers : parseElements parseOne count (index + 1) first.2 with
      | error err => simp [hothers] at h
      | ok others =>
        simp only [hothers, pure, Except.pure, Except.ok.injEq, Prod.mk.injEq] at h
        rw [← h.1, length_cons, parseElements_length hothers]

theorem parseElements_exceeds : ∀ (tokens : List Bytes) (index : Nat),
    (∃ token ∈ tokens, maxBulkStringLength < token.length) →
      Refused (parseElements (parseValue levels) tokens.length index
        (encodeValues (tokens.map bulk) ++ rest))
  | [], _, h => by simp at h
  | token :: tokens, index, h => by
    rw [encodeValues_bulk_cons, length_cons, parseElements, append_assoc]
    by_cases htoken : token.length ≤ maxBulkStringLength
    · have htokens : ∃ t ∈ tokens, maxBulkStringLength < t.length := by
        obtain ⟨t, ht, hlen⟩ := h
        rcases mem_cons.mp ht with rfl | ht
        · omega
        · exact ⟨t, ht, hlen⟩
      obtain ⟨err, herr, hrec⟩ := parseElements_exceeds tokens (index + 1) htokens
      rw [parseValue_encodeBulk levels _ htoken]
      exact ⟨err, by simp only [Except.mapError, bind, Except.bind, herr], hrec⟩
    · obtain ⟨err, herr, hrec⟩ := parseValue_encodeBulk_exceeds levels
        (encodeValues (tokens.map bulk) ++ rest) (not_le.mp htoken)
      refine ⟨.wrap (.arrayElement index) err, ?_, by rw [recoverable_wrap, hrec]⟩
      simp only [herr, Except.mapError, bind, Except.bind]

theorem parseArray_of_length {parseOne : Bytes → Except ParseError (Value × Bytes)}
    {rest : Bytes} (hlength : readLength .arrayLength input = .ok ((n : Int), rest)) :
    parseArray parseOne input =
      if n ≤ maxArrayElements then do
        let (elements, rest) ← parseElements parseOne n 0 rest
        return (.array elements false, rest) else .error (.arrayLengthExceedsLimit n) := by
  simp only [parseArray, hlength, bind, Except.bind]
  rw [if_neg (by omega), if_neg (by omega)]
  by_cases hn : n ≤ maxArrayElements
  · rw [if_neg (by omega), if_pos hn, Int.toNat_natCast]
  · rw [if_pos (by omega), if_neg hn]

/-- A bulk string the parser reads. -/
def BulkWithin : Value → Prop
  | .bulkString data isNull | .textBulkString data isNull =>
    isNull = true ∨ data.length ≤ maxBulkStringLength
  | _ => False

/-- An array of bulk strings within the limits of the parser. -/
def CommandFrame (frame : Value) : Prop :=
  ∃ elements, frame = .array elements false ∧ elements.length ≤ maxArrayElements ∧
    ∀ e ∈ elements, BulkWithin e

theorem parseValue_nullBulk :
    parseValue levels (ascii "$-1\r\n" ++ rest) = .ok (.bulkString [] true, rest) := by
  have hline := readLineBytes_content rest (show 10 ∉ ascii "-1" by decide) (by decide)
  have hbytes : ascii "$-1\r\n" ++ rest = 36 :: (ascii "-1" ++ (crlf ++ rest)) := rfl
  simp only [hbytes, parseValue, parseBulkString, readLength, hline]
  rfl

theorem BulkWithin.parse {e : Value} (h : BulkWithin e) (levels : Nat) (rest : Bytes) :
    parseValue levels (e.encode ++ rest) = .ok (e.norm, rest) := by
  cases e with
  | bulkString data isNull | textBulkString data isNull =>
    cases isNull with
    | true => simpa [encode, Value.norm] using parseValue_nullBulk levels rest
    | false =>
      have hlen : data.length ≤ maxBulkStringLength := h.resolve_left (by decide)
      simpa [encode, Value.norm, bulk] using parseValue_encodeBulk levels rest hlen
  | _ => exact h.elim

theorem parseElements_bulks {elements : List Value}
    (h : ∀ e ∈ elements, BulkWithin e) (index : Nat) :
    parseElements (parseValue levels) elements.length index
      (encodeValues elements ++ rest) = .ok (normAll elements, rest) := by
  induction elements generalizing index with
  | nil =>
    simp only [encodeValues, normAll]
    rfl
  | cons e elements ih =>
    have hrest := ih (fun e' he' => h e' (mem_cons_of_mem _ he')) (index + 1)
    rw [encodeValues, length_cons, parseElements, append_assoc,
      (h e mem_cons_self).parse levels]
    simp only [Except.mapError, bind, Except.bind, hrest, normAll]
    rfl

/-- **A command frame is one item of the parser.** -/
theorem CommandFrame.parse {frame : Value} (h : CommandFrame frame) (rest : Bytes) :
    Stash.parse (frame.encode ++ rest) = .ok (frame.norm, rest) := by
  obtain ⟨elements, rfl, hcount, hbulks⟩ := h
  have hmax : maxArrayElements = 1048576 := rfl
  have hlen := @readLength_formatInt .arrayLength elements.length
    (encodeValues elements ++ rest) (by omega)
  simp only [encode, Value.norm, Bool.false_eq_true, if_false, appendPrefixedIntLine,
    cons_append, append_assoc]
  change parseArray (parseValue 127) _ = _
  rw [parseArray_of_length hlen, if_pos hcount, parseElements_bulks 127 rest hbulks]
  rfl

theorem commandFrame_within {tokens : List Bytes} (h : WithinLimits tokens) :
    CommandFrame (commandFrame tokens) := by
  refine ⟨_, rfl, by simpa using h.1, fun e he => ?_⟩
  obtain ⟨token, htoken, rfl⟩ := mem_map.mp he
  exact .inr (h.2 token htoken)

/-- **A command frame within the limits is read back exactly.** -/
theorem parse_commandFrame (h : WithinLimits tokens) :
    parse ((commandFrame tokens).encode ++ rest) = .ok (commandFrame tokens, rest) := by
  have hparse := (commandFrame_within h).parse rest
  rwa [norm_commandFrame] at hparse

/-- **A command frame over the limits is refused, whatever follows it.** -/
theorem parse_commandFrame_exceeds (h : ¬WithinLimits tokens) :
    Refused (parse ((commandFrame tokens).encode ++ rest)) := by
  simp only [parse, maxNestingDepth, parseValue, encode_commandFrame, appendPrefixedIntLine,
    cons_append, append_assoc]
  rcases readLength_cases .arrayLength tokens.length
    (encodeValues (tokens.map bulk) ++ rest) with hlen | ⟨err, hlen, hrec⟩
  · rw [parseArray_of_length hlen]
    split
    · rename_i hcount
      have htoken : ∃ token ∈ tokens, maxBulkStringLength < token.length := by
        by_contra hall
        simp only [not_exists, not_and, not_lt] at hall
        exact h ⟨hcount, hall⟩
      obtain ⟨err, herr, hrec⟩ := parseElements_exceeds 127 rest tokens 0 htoken
      exact ⟨err, by simp only [herr, bind, Except.bind], hrec⟩
    · exact ⟨_, rfl, rfl⟩
  · exact ⟨err, by simp only [parseArray, hlen, bind, Except.bind], hrec⟩

/-- Torn bulk strings, continued by a star, are read as other bulk strings only if these begin with
the torn bytes: the missing part of a payload is taken from what follows. -/
theorem parseElements_torn (more : Bytes) {tokens tokens' : List Bytes} {index : Nat}
    {rest : Bytes} (hp : p <+: encodeValues (tokens.map bulk))
    (h : parseElements (parseValue levels) tokens.length index (p ++ 42 :: more) =
      .ok (tokens'.map bulk, rest)) : p <+: encodeValues (tokens'.map bulk) := by
  induction tokens generalizing tokens' index p with
  | nil =>
    rw [prefix_nil.mp hp]
    exact nil_prefix
  | cons token tokens ih =>
    obtain ⟨⟨value, after⟩, hfirst, h⟩ := bind_ok h
    obtain ⟨⟨values, after'⟩, hothers, h⟩ := bind_ok h
    cases tokens' with
    | nil => cases h
    | cons token' tokens' =>
      cases h
      cases p with
      | nil => exact nil_prefix
      | cons marker p =>
        simp only [encodeValues_bulk_cons, encodeBulk, appendPrefixedIntLine, cons_append,
          append_assoc] at hp ⊢
        obtain ⟨rfl, hbody⟩ := cons_prefix_cons.mp hp
        have hbulk : parseBulkString (p ++ 42 :: more) = .ok (bulk token', after) := by
          simpa [parseValue] using mapError_ok hfirst
        obtain ⟨hlen, q, rfl, hq, hafter⟩ := readLength_part hbody (parseBulkString_ok hbulk)
        rw [hlen, cons_prefix_cons, prefix_append_right_inj, prefix_append_right_inj]
        refine ⟨rfl, ?_⟩
        rw [← append_assoc] at hafter hq ⊢
        rcases prefix_append_cases hq with hq | ⟨q, rfl, hothersPart⟩
        · -- the tear is in the first bulk string
          have hlength : q.length ≤ (token' ++ crlf).length := by
            simpa [show token'.length = token.length by omega] using hq.length_le
          exact (prefix_of_prefix_length_le ⟨_, hafter.symm⟩ (prefix_append _ _) hlength).trans
            (prefix_append _ _)
        · rw [append_assoc (token ++ crlf)] at hafter
          obtain ⟨hsame, rfl⟩ := append_inj hafter (by simp; omega)
          rw [hsame, prefix_append_right_inj]
          exact ih hothersPart hothers

/-- **A torn command frame, continued by a star, is never read as a command frame that does not
begin with the torn bytes.** -/
theorem parse_torn {more rest : Bytes} {tokens' : List Bytes} (hp : p <+: (commandFrame tokens).encode)
    (h : parse (p ++ 42 :: more) = .ok (commandFrame tokens', rest)) :
    p <+: (commandFrame tokens').encode := by
  cases p with
  | nil => exact nil_prefix
  | cons marker p =>
    simp only [encode_commandFrame, appendPrefixedIntLine, cons_append, append_assoc] at hp ⊢
    obtain ⟨rfl, hbody⟩ := cons_prefix_cons.mp hp
    have harray : parseArray (parseValue 127) (p ++ 42 :: more) = .ok (commandFrame tokens', rest) := by
      simpa [parse, maxNestingDepth, parseValue] using h
    obtain ⟨⟨count, after⟩, hlength, h⟩ := bind_ok harray
    obtain ⟨rfl, q, rfl, hq, rfl⟩ := readLength_part hbody hlength
    simp only at h
    rw [if_neg (by omega), if_neg (by omega)] at h
    split at h
    · cases h
    · obtain ⟨⟨values, after⟩, helements, h⟩ := bind_ok h
      simp only [pure, Except.pure, commandFrame, Except.ok.injEq, Prod.mk.injEq, array.injEq] at h
      obtain ⟨⟨rfl, -⟩, rfl⟩ := h
      rw [Int.toNat_natCast] at helements
      have hcount := parseElements_length helements
      rw [length_map] at hcount
      rw [hcount, cons_prefix_cons, prefix_append_right_inj, prefix_append_right_inj]
      exact ⟨rfl, parseElements_torn 127 more hq helements⟩

end Stash
