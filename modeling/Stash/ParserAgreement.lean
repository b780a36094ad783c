import Stash.DecodeStable
import Stash.ParserInput

/-!
# The two parsers agree

`Decode` reads a buffer that is at hand, `Parser.Parse` a stream.  The parser has limits that the
decoder lacks: the length of a line, of a bulk string and of an array.  Within them the two read the
same values from the same bytes, refuse the same inputs as malformed, and find the same inputs cut
off, whatever pieces the stream comes in.

The limits are about the lines and lengths that are read: `Visits` says where a value begins, and
`KeepsLimits` that what stands there keeps them.
-/

namespace Stash

open Incremental List

/-- `errors.Is` with `io.EOF` or `io.ErrUnexpectedEOF`: the stream ended. -/
def ParseError.truncated (err : ParseError) : Bool :=
  ParseError.is .eof err || ParseError.is .unexpectedEOF err

/-! ## Limits -/

/-- The values that are read where `count` of them stand one after the other: these themselves, and
the elements of the arrays among them. -/
inductive Visits : Nat → Nat → Bytes → Nat → Bytes → Prop
  | value {levels count : Nat} {buf : Bytes} : Visits levels (count + 1) buf levels buf
  | inside {levels count length : Nat} {consumed : Nat} {rest : Bytes} {levels' : Nat} {buf' : Bytes}
    (hlength : decodeLength .arrayLength (42 :: rest) = .ok ((length : Int), consumed))
    (h : Visits levels length ((42 :: rest).drop consumed) levels' buf') :
    Visits (levels + 1) (count + 1) (42 :: rest) levels' buf'
  | next {levels count : Nat} {buf : Bytes} {value : Value} {n : Nat} {levels' : Nat} {buf' : Bytes}
    (hvalue : decodeValue levels buf = .ok (value, n))
    (h : Visits levels count (buf.drop n) levels' buf') : Visits levels (count + 1) buf levels' buf'

/-- The line behind a marker has at most 64 KiB and its terminator, and a length that it declares is
within the limits of the parser. -/
structure Fits (buf : Bytes) : Prop where
  line : (buf.tail.takeWhile (· ≠ 10)).length ≤ maxLineLength + 1
  bulk : ∀ rest length n, buf = 36 :: rest → decodeLength .bulkLength buf = .ok (length, n) →
    length ≤ maxBulkStringLength
  array : ∀ rest count n, buf = 42 :: rest → decodeLength .arrayLength buf = .ok (count, n) →
    count ≤ maxArrayElements

/-- All that is read keeps the limits. -/
def Within (levels count : Nat) (buf : Bytes) : Prop :=
  ∀ levels' buf', Visits levels count buf levels' buf' → Fits buf'

/-- The limits under which the parser reads what the decoder reads. -/
def KeepsLimits (buf : Bytes) : Prop :=
  Within maxNestingDepth 1 buf

variable {count levels : Nat}

theorem Within.fits {buf : Bytes} (h : Within levels (count + 1) buf) : Fits buf :=
  h levels buf .value

theorem Within.one {levels count : Nat} {buf : Bytes} (h : Within levels (count + 1) buf) :
    Within levels 1 buf := by
  intro levels' buf' hvisits
  cases hvisits with
  | value => exact h _ _ .value
  | inside hlength hinside => exact h _ _ (.inside hlength hinside)
  | next _ hnone => cases hnone

theorem Within.next {buf : Bytes} (h : Within levels (count + 1) buf) {value : Value} {n : Nat}
    (hvalue : decodeValue levels buf = .ok (value, n)) : Within levels count (buf.drop n) :=
  fun _ _ hvisits => h _ _ (.next hvalue hvisits)

theorem Within.inside {length consumed : Nat} {rest : Bytes}
    (h : Within (levels + 1) (count + 1) (42 :: rest))
    (hlength : decodeLength .arrayLength (42 :: rest) = .ok ((length : Int), consumed)) :
    Within levels length ((42 :: rest).drop consumed) :=
  fun _ _ hvisits => h _ _ (.inside hlength hvisits)

/-! ## Lines -/

section Lines

variable {σ : Type} {input : Input σ} {view : σ → Bytes}

theorem exists_tail_of_full {full line rest rest' : Bytes} (hfull : 10 ∉ full)
    (h : line ++ 10 :: rest = full ++ rest') : ∃ tail, line = full ++ tail ∧ rest' = tail ++ 10 :: rest := by
  rcases append_eq_append_iff.mp h with ⟨c, rfl, hc⟩ | ⟨c, rfl, hc⟩
  · rcases c with _ | ⟨b, c⟩
    · exact ⟨[], by simp, by simpa using hc.symm⟩
    · obtain ⟨rfl, -⟩ := List.cons.inj hc
      exact absurd (mem_append_right _ mem_cons_self) hfull
  · exact ⟨c, rfl, hc⟩

theorem line_unique {line line' rest rest' : Bytes} (hline' : 10 ∉ line') (hline : 10 ∉ line)
    (h : line ++ 10 :: rest = line' ++ 10 :: rest') : line' = line ∧ rest' = rest := by
  obtain ⟨tail, rfl, htail⟩ := exists_tail_of_full hline' h
  rcases tail with _ | ⟨b, tail⟩
  · exact ⟨(append_nil _).symm, (List.cons.inj htail).2⟩
  · obtain ⟨rfl, -⟩ := List.cons.inj htail
    exact absurd (mem_append_right _ mem_cons_self) hline

theorem notMem_of_all {l : Bytes} (h : ∀ b ∈ l, decide (b = 10) = false) : 10 ∉ l :=
  fun hmem => by simpa using h 10 hmem

section

variable (hv : Views input view)
include hv

theorem readSlice_line {s : σ} {line rest : Bytes}
    (hs : view s = line ++ 10 :: rest) (hline : 10 ∉ line) :
    (∃ s', input.readSlice s = (line ++ [10], .delimiter, s') ∧ view s' = rest) ∨
    ∃ full tail s', line = full ++ tail ∧ full.length = bufferSize ∧
      input.readSlice s = (full, .bufferFull, s') ∧ view s' = tail ++ 10 :: rest := by
  obtain ⟨ending, hend, hslices⟩ := hv.readSlice s
  rcases hanswer : input.readSlice s with ⟨fragment, ending', s'⟩
  rw [hanswer] at hend hslices
  simp only at hend hslices
  subst hend
  rw [hs] at hslices
  generalize hrest : view s' = rest' at hslices
  cases hslices with
  | @delimiter line' rest' d hx hd hline' hlength =>
    obtain rfl : d = 10 := by simpa using hd
    obtain ⟨rfl, rfl⟩ := line_unique (notMem_of_all hline') hline hx
    exact .inl ⟨s', rfl, hrest⟩
  | bufferFull hx hfull hlength =>
    obtain ⟨tail, rfl, rfl⟩ := exists_tail_of_full (notMem_of_all hfull) hx
    exact .inr ⟨_, tail, s', rfl, hlength, rfl, hrest⟩
  | eof hx hlength =>
    exact absurd (mem_append_right _ mem_cons_self) (notMem_of_all hx)

theorem readSlice_open {s : σ} (hs : 10 ∉ view s) :
    (∃ s', input.readSlice s = (view s, .eof, s')) ∨
    ∃ full s', view s = full ++ view s' ∧ full.length = bufferSize ∧
      input.readSlice s = (full, .bufferFull, s') := by
  obtain ⟨ending, hend, hslices⟩ := hv.readSlice s
  rcases hanswer : input.readSlice s with ⟨fragment, ending', s'⟩
  rw [hanswer] at hend hslices
  simp only at hend hslices
  subst hend
  generalize hrest : view s' = rest' at hslices
  cases hslices with
  | @delimiter line' rest' d hx hd hline' hlength =>
    obtain rfl : d = 10 := by simpa using hd
    rw [hx] at hs
    exact absurd (mem_append_right _ mem_cons_self) hs
  | bufferFull hx hfull hlength => exact .inr ⟨_, s', by rw [hx, hrest], hlength, rfl⟩
  | eof hx hlength => exact .inl ⟨s', rfl⟩

theorem readLineLoop_view_line (fuel : Nat) {combined line rest : Bytes}
    {s : σ} (hs : view s = line ++ 10 :: rest) (hline : 10 ∉ line)
    (hfits : combined.length + line.length ≤ maxLineLength + 1)
    (hfuel : combined.length + bufferSize * fuel = maxOpenLine) :
    ∃ s', Parser.readLineLoop input fuel combined s =
      (trimCRLF (combined ++ (line ++ [10]))).map (·, s') ∧ view s' = rest := by
  have hbuffer : bufferSize = 4096 := rfl
  have hmax : maxLineLength = 65536 := rfl
  have hopen : maxOpenLine = 69632 := rfl
  induction fuel generalizing combined line s with
  | zero => omega
  | succ fuel ih =>
    unfold Parser.readLineLoop
    rcases readSlice_line hv hs hline with ⟨s', hread, hview⟩ | ⟨full, tail, s', rfl, hfull, hread, hview⟩
    · rw [hread]
      exact ⟨s', rfl, hview⟩
    · rw [hread]
      rw [length_append] at hfits
      have hlength : (combined ++ full).length = combined.length + bufferSize := by
        rw [length_append, hfull]
      -- a fragment is a whole buffer, so the line is not one byte over the limit yet
      simp only
      rw [hbuffer] at hfuel
      rw [if_neg (by omega)]
      obtain ⟨s'', hloop, hview'⟩ := @ih (combined ++ full) tail s' hview
        (fun hmem => hline (mem_append_right _ hmem)) (by omega) (by rw [hbuffer]; omega)
      refine ⟨s'', ?_, hview'⟩
      rw [hloop, append_assoc, append_assoc]

theorem readLineLoop_view_open (fuel : Nat) {combined : Bytes} {s : σ}
    (hs : 10 ∉ view s) (hfits : combined.length + (view s).length ≤ maxLineLength + 1)
    (hfuel : combined.length + bufferSize * fuel = maxOpenLine) :
    Parser.readLineLoop input fuel combined s = .error .eof := by
  have hbuffer : bufferSize = 4096 := rfl
  have hmax : maxLineLength = 65536 := rfl
  have hopen : maxOpenLine = 69632 := rfl
  induction fuel generalizing combined s with
  | zero => omega
  | succ fuel ih =>
    unfold Parser.readLineLoop
    rcases readSlice_open hv hs with ⟨s', hread⟩ | ⟨full, s', hview, hfull, hread⟩
    · rw [hread]
    · rw [hread]
      have hlength : (combined ++ full).length = combined.length + bufferSize := by
        rw [length_append, hfull]
      rw [hview, length_append] at hfits
      simp only
      rw [hbuffer] at hfuel
      rw [if_neg (by omega)]
      refine ih (fun hmem => hs ?_) (by omega) (by rw [hbuffer]; omega)
      rw [hview]
      exact mem_append_right _ hmem

/-- **A line within the limit is read to its end**, whatever the buffer does. -/
theorem readLineBytes_view_line {s : σ} {line rest : Bytes}
    (hs : view s = line ++ 10 :: rest) (hline : 10 ∉ line) (hfits : line.length ≤ maxLineLength + 1) :
    ∃ s', Parser.readLineBytes input s = (trimCRLF (line ++ [10])).map (·, s') ∧ view s' = rest := by
  unfold Parser.readLineBytes
  rcases readSlice_line hv hs hline with ⟨s', hread, hview⟩ | ⟨full, tail, s', rfl, hfull, hread, hview⟩
  · rw [hread]
    exact ⟨s', rfl, hview⟩
  · rw [hread, append_assoc]
    rw [length_append] at hfits
    exact readLineLoop_view_line hv _ hview (fun hmem => hline (mem_append_right _ hmem)) hfits
      (by rw [hfull]; rfl)

theorem readLineBytes_view_open {s : σ} (hs : 10 ∉ view s)
    (hfits : (view s).length ≤ maxLineLength + 1) : Parser.readLineBytes input s = .error .eof := by
  unfold Parser.readLineBytes
  rcases readSlice_open hv hs with ⟨s', hread⟩ | ⟨full, s', hview, hfull, hread⟩
  · rw [hread]
  · rw [hread]
    rw [hview, length_append] at hfits
    refine readLineLoop_view_open hv _ (fun hmem => hs ?_) hfits (by rw [hfull]; rfl)
    rw [hview]
    exact mem_append_right _ hmem

end

end Lines

theorem trimCRLF_error {line : Bytes} {err : ParseError} (h : trimCRLF line = .error err) :
    err = .missingCRLF := by
  unfold trimCRLF at h
  split at h
  · cases h
  · cases h
    rfl

/-! ## Agreement -/

/-- **The two answers agree.**  The decoder was given the whole buffer, of which the parser has `x`
left; `front` is in front of it. -/
inductive Agrees {σ α : Type} (view : σ → Bytes) (front x : Bytes) :
    Except DecodeError (α × Nat) → Except ParseError (α × σ) → Prop
  | ok {a : α} {n : Nat} {s : σ} {item rest : Bytes} (hx : x = item ++ rest)
    (hn : n = (front ++ item).length) (hview : view s = rest) : Agrees view front x (.ok (a, n)) (.ok (a, s))
  | incomplete {need : Option Nat} {err : ParseError} (h : err.truncated = true) :
    Agrees view front x (.error (.incomplete need)) (.error err)
  | permanent {err err' : ParseError} (h : err'.truncated = false) :
    Agrees view front x (.error (.permanent err)) (.error err')

section Agreement

variable {σ α γ : Type} {input : Input σ} {view : σ → Bytes} {front x : Bytes}

variable {d : Except DecodeError (α × Nat)} {p : Except ParseError (α × σ)} {levels : Nat}
    {parseOne : σ → Except ParseError (Value × σ)} {err : ParseError}

theorem Agrees.bind (h : Agrees view front x d p) {g : α → Nat → Except DecodeError (γ × Nat)}
    {f : α → σ → Except ParseError (γ × σ)}
    (hrest : ∀ a item rest s, x = item ++ rest → view s = rest → d = .ok (a, (front ++ item).length) →
      Agrees view (front ++ item) rest (g a (front ++ item).length) (f a s)) :
    Agrees view front x (d >>= fun q => g q.1 q.2) (p >>= fun q => f q.1 q.2) := by
  cases h with
  | incomplete h => exact .incomplete h
  | permanent h => exact .permanent h
  | @ok a n s item rest hx hn hview =>
    subst hn
    have hnext := hrest a item rest s hx hview rfl
    change Agrees view front x (g a (front ++ item).length) (f a s)
    generalize g a (front ++ item).length = d' at hnext ⊢
    generalize f a s = p' at hnext ⊢
    cases hnext with
    | incomplete h => exact .incomplete h
    | permanent h => exact .permanent h
    | @ok b n s' item' rest' hx' hn' hview' =>
      have hsplit : x = item ++ item' ++ rest' := by rw [hx, hx', append_assoc]
      exact .ok hsplit (by rw [hn', append_assoc]) hview'

theorem Agrees.wrap (h : Agrees view front x d p) (context : ErrorContext) :
    Agrees view front x d (p.mapError (ParseError.wrap context)) := by
  cases h with
  | ok hx hn hview => exact .ok hx hn hview
  | incomplete h => exact .incomplete h
  | permanent h => exact .permanent h

theorem agrees_check {check : Except ParseError α} {wrap : ParseError → ParseError}
    (hcheck : ∀ err, check = .error err → (wrap err).truncated = false) {s : σ} (hs : view s = x) :
    Agrees view front x ((check.mapError fun err => .permanent (wrap err)).map (·, front.length))
      (check.mapError wrap >>= fun a => .ok (a, s)) := by
  cases check with
  | error err => exact .permanent (hcheck err rfl)
  | ok a => exact .ok (nil_append x).symm (by rw [append_nil]) hs

section

variable (hv : Views input view)
include hv

theorem agrees_line (marker : UInt8) {s : σ} (hs : view s = x)
    (hfits : (x.takeWhile (· ≠ 10)).length ≤ maxLineLength + 1) :
    Agrees view [marker] x (lineBehind (marker :: x)) (Parser.readLineBytes input s) := by
  by_cases hnl : 10 ∈ x
  · obtain ⟨line, rest, rfl, hline⟩ := eq_append_cons_of_mem hnl
    have htake : (line ++ 10 :: rest).takeWhile (· ≠ 10) = line := by
      rw [takeWhile_append_of_pos fun b hb => by simpa using fun heq : b = 10 => hline (heq ▸ hb)]
      simp
    rw [htake] at hfits
    obtain ⟨s', hread, hview⟩ := readLineBytes_view_line hv hs hline hfits
    have hdecode : lineBehind (marker :: (line ++ 10 :: rest)) =
        ((trimCRLF (line ++ [10])).mapError .permanent).map (·, 1 + (line.length + 1)) := by
      change (decodeLine (line ++ 10 :: rest)).map _ = _
      rw [decodeLine_line rest hline]
      cases trimCRLF (line ++ [10]) <;> rfl
    rw [hread, hdecode]
    cases htrim : trimCRLF (line ++ [10]) with
    | error err =>
      obtain rfl := trimCRLF_error htrim
      exact .permanent rfl
    | ok content =>
      have hsplit : line ++ 10 :: rest = (line ++ [10]) ++ rest := by simp
      refine .ok hsplit ?_ hview
      simp only [length_append, length_cons, length_nil]
  · have htake : x.takeWhile (· ≠ 10) = x := by
      have hall : (x ++ []).takeWhile (· ≠ 10) = x ++ [].takeWhile (· ≠ 10) :=
        takeWhile_append_of_pos fun b hb => by simpa using fun heq : b = 10 => hnl (heq ▸ hb)
      simpa using hall
    rw [htake] at hfits
    have hdecode : lineBehind (marker :: x) = .error (.incomplete none) := by
      change (decodeLine x).map _ = _
      rw [decodeLine_open hnl]
      rfl
    rw [hdecode, readLineBytes_view_open hv (hs ▸ hnl) (hs ▸ hfits)]
    exact .incomplete rfl

theorem agrees_lineValue (marker : UInt8) {s : σ} (hs : view s = x)
    (hfits : (x.takeWhile (· ≠ 10)).length ≤ maxLineLength + 1)
    {fromLine : Bytes → Except ParseError Value}
    (hfrom : ∀ line err, fromLine line = .error err → err.truncated = false) :
    Agrees view [marker] x (decodeLineValue fromLine (marker :: x)) (Parser.parseLine input fromLine s) := by
  have hwhole := (agrees_line hv marker hs hfits).bind
    (g := fun line consumed => ((fromLine line).mapError fun err => .permanent (id err)).map (·, consumed))
    (f := fun line s' => (fromLine line).mapError id >>= fun value => .ok (value, s'))
    fun line item rest s' _ hview _ => agrees_check (hfrom line) hview
  have hparse : Parser.parseLine input fromLine s = Parser.readLineBytes input s >>= fun q =>
      (fromLine q.1).mapError id >>= fun value => .ok (value, q.2) := by
    unfold Parser.parseLine
    refine congrArg (Parser.readLineBytes input s >>= ·) (funext fun q => ?_)
    obtain ⟨line, s'⟩ := q
    simp only
    cases fromLine line <;> rfl
  rw [decodeLineValue_eq, hparse]
  exact hwhole

theorem agrees_length (context : ErrorContext) (marker : UInt8) {s : σ}
    (hs : view s = x) (hfits : (x.takeWhile (· ≠ 10)).length ≤ maxLineLength + 1) :
    Agrees view [marker] x (decodeLength context (marker :: x)) (Parser.readLength input context s) := by
  rw [decodeLength_eq]
  exact (agrees_line hv marker hs hfits).bind
    (g := fun line consumed => ((parseDecimalInt line).mapError fun err =>
      .permanent (.wrap context err)).map (·, consumed))
    (f := fun line s' => (parseDecimalInt line).mapError (.wrap context) >>= fun length => .ok (length, s'))
    fun line item rest s' _ hview _ => agrees_check (fun err herr => by
      rcases parseDecimalInt_error_eq herr with rfl | rfl <;> rfl) hview

/-! ### Bulk strings -/

theorem expectCRLF_view (s : σ) :
    (∃ s', Parser.expectCRLF input s = .ok ((), s') ∧ view s = crlf ++ view s') ∨
    (Parser.expectCRLF input s = .error .eof ∧ (view s).length < 2) ∨
    (Parser.expectCRLF input s = .error .missingCRLF ∧ 2 ≤ (view s).length ∧ (view s).take 2 ≠ crlf) := by
  unfold Parser.expectCRLF
  rcases hs : view s with _ | ⟨carriage, rest⟩
  · rw [hv.readByte_nil hs]
    exact .inr (.inl ⟨rfl, Nat.succ_pos 1⟩)
  · obtain ⟨s₁, hfirst, hs₁⟩ := hv.readByte_cons hs
    rw [hfirst]
    rcases rest with _ | ⟨newline, rest⟩
    · refine .inr (.inl ⟨?_, Nat.lt_succ_self 1⟩)
      simp only [bind, Except.bind, hv.readByte_nil hs₁]
    · obtain ⟨s₂, hsecond, hs₂⟩ := hv.readByte_cons hs₁
      simp only [bind, Except.bind, hsecond]
      by_cases hcrlf : carriage = 13 ∧ newline = 10
      · rw [if_pos hcrlf]
        obtain ⟨rfl, rfl⟩ := hcrlf
        exact .inl ⟨s₂, rfl, by rw [hs₂]; rfl⟩
      · rw [if_neg hcrlf]
        refine .inr (.inr ⟨rfl, by simp, fun htake => hcrlf ?_⟩)
        simpa [crlf] using htake

theorem agrees_payload (length : Nat) {s : σ} (hs : view s = x) :
    Agrees view front x (decodePayload length front.length (front ++ x))
      ((input.readFull length s).mapError (ParseError.wrap .bulkPayload) >>= fun p =>
        (Parser.expectCRLF input p.2).mapError (ParseError.wrap .bulkTerminator) >>= fun q =>
          .ok (Value.bulkString p.1 false, q.2)) := by
  subst hs
  rw [decodePayload_front]
  by_cases hpayload : length ≤ (view s).length
  · obtain ⟨s₁, hread, hs₁⟩ := hv.readFull hpayload
    rw [hread]
    simp only [bind, Except.bind, Except.mapError]
    rcases expectCRLF_view hv s₁ with ⟨s₂, hcrlf, hs₂⟩ | ⟨hcrlf, hshort⟩ | ⟨hcrlf, hlong, htake⟩
    · rw [hcrlf]
      rw [hs₁] at hs₂
      have hsplit : view s = ((view s).take length ++ crlf) ++ view s₂ := by
        rw [append_assoc, ← hs₂, take_append_drop]
      have hlength : ((view s).drop length).length = 2 + (view s₂).length := by
        rw [hs₂, length_append]
        rfl
      rw [length_drop] at hlength
      rw [if_neg (by omega), if_pos (by rw [hs₂]; exact take_left' rfl)]
      refine .ok hsplit ?_ rfl
      rw [length_append, length_append, length_take_of_le hpayload]
      simp only [crlf, length_cons, length_nil]
      omega
    · rw [hcrlf]
      rw [hs₁, length_drop] at hshort
      rw [if_pos (by omega)]
      unfold incompleteNeed
      split <;> exact .incomplete rfl
    · rw [hcrlf]
      rw [hs₁] at hlong htake
      rw [length_drop] at hlong
      rw [if_neg (by omega), if_neg htake]
      exact .permanent rfl
  · rw [hv.readFull_short (by omega), if_pos (by omega)]
    have htruncated : (ParseError.wrap .bulkPayload
        (if view s = [] then .eof else .unexpectedEOF)).truncated = true := by
      split <;> rfl
    unfold incompleteNeed
    split <;> exact .incomplete htruncated

end

/-- A bulk string after its length. -/
def Parser.bulkAfter (input : Input σ) (length : Int) (s : σ) : Except ParseError (Value × σ) :=
  if length = -1 then .ok (.bulkString [] true, s)
  else if length < -1 then .error (.invalidBulkLength length)
  else if length > maxBulkStringLength then .error (.bulkLengthExceedsLimit length)
  else (input.readFull length.toNat s).mapError (ParseError.wrap .bulkPayload) >>= fun p =>
    (Parser.expectCRLF input p.2).mapError (ParseError.wrap .bulkTerminator) >>= fun q =>
      .ok (.bulkString p.1 false, q.2)

theorem Parser.parseBulkString_eq (input : Input σ) (s : σ) :
    Parser.parseBulkString input s =
      Parser.readLength input .bulkLength s >>= fun p => Parser.bulkAfter input p.1 p.2 :=
  rfl

theorem agrees_bulkString (hv : Views input view) {s : σ} (hs : view s = x)
    (hfits : Fits (36 :: x)) :
    Agrees view [36] x (decodeBulkString (36 :: x)) (Parser.parseBulkString input s) := by
  rw [decodeBulkString_eq, Parser.parseBulkString_eq]
  refine (agrees_length hv .bulkLength 36 hs hfits.line).bind
    (g := fun length consumed => decodeBulkAfter length consumed (36 :: x)) (f := Parser.bulkAfter input)
    fun length item rest s' hx hview hlength => ?_
  have hlimit := hfits.bulk x length _ rfl hlength
  unfold decodeBulkAfter Parser.bulkAfter
  by_cases hnull : length = -1
  · simp only [if_pos hnull]
    exact .ok (nil_append rest).symm (by rw [append_nil]) hview
  · by_cases hneg : length < -1
    · simp only [if_neg hnull, if_pos hneg]
      exact .permanent rfl
    · have hfront : 36 :: x = ([36] ++ item) ++ rest := by rw [hx]; rfl
      simp only [if_neg hnull, if_neg hneg]
      rw [if_neg (by omega), hfront]
      exact agrees_payload hv length.toNat hview

/-! ### Arrays -/

/-- An array after its length. -/
def Parser.arrayAfter (parseOne : σ → Except ParseError (Value × σ)) (count : Int) (s : σ) :
    Except ParseError (Value × σ) :=
  if count = -1 then .ok (.array [] true, s)
  else if count < -1 then .error (.invalidArrayLength count)
  else if count > maxArrayElements then .error (.arrayLengthExceedsLimit count)
  else Parser.parseElements parseOne count.toNat 0 s >>= fun p => .ok (.array p.1 false, p.2)

theorem Parser.parseArray_eq (input : Input σ) (parseOne : σ → Except ParseError (Value × σ))
    (s : σ) :
    Parser.parseArray input parseOne s =
      Parser.readLength input .arrayLength s >>= fun p => Parser.arrayAfter parseOne p.1 p.2 :=
  rfl

/-- The parsers of single values agree on what is within the limits. -/
def AgreesBelow (view : σ → Bytes) (levels : Nat) (parseOne : σ → Except ParseError (Value × σ)) :
    Prop :=
  ∀ {x : Bytes} {s : σ}, view s = x → Within levels 1 x →
    Agrees view [] x (decodeValue levels x) (parseOne s)

theorem agrees_element (hone : AgreesBelow view levels parseOne) (index : Nat) {s : σ}
    (hs : view s = x) (hwithin : Within levels 1 x) :
    Agrees view front x (decodeElement (decodeValue levels) index front.length (front ++ x))
      ((parseOne s).mapError (ParseError.wrap (.arrayElement index))) := by
  have hagrees := (hone hs hwithin).wrap (.arrayElement index)
  rcases @decodeElement_front (decodeValue levels) index front x with
    ⟨element, n, hx, hresult⟩ | ⟨hx, hresult⟩ | ⟨need, hx, hresult⟩ | ⟨err, hx, hresult⟩
  all_goals
    rw [hx] at hagrees
    rw [hresult]
    generalize (parseOne s).mapError (ParseError.wrap (.arrayElement index)) = p at hagrees ⊢
  · cases hagrees with
    | ok hsplit hn hview =>
      refine .ok hsplit ?_ hview
      rw [hn, nil_append, length_append]
  · cases hagrees with
    | incomplete h => exact .incomplete h
  · cases hagrees with
    | incomplete h =>
      unfold incompleteNeed
      split <;> exact .incomplete h
  · cases hagrees with
    | permanent h => exact .permanent h

theorem agrees_elements (hone : AgreesBelow view levels parseOne) (count : Nat) :
    ∀ (index : Nat) (front x : Bytes) {s : σ}, view s = x → Within levels count x →
      Agrees view front x (decodeElements (decodeValue levels) (front ++ x) count index front.length)
        (Parser.parseElements parseOne count index s) := by
  induction count with
  | zero => exact fun index front x s hs _ => .ok (nil_append x).symm (by rw [append_nil]) hs
  | succ count ih =>
    intro index front x s hs hwithin
    rw [decodeElements_succ]
    refine (agrees_element hone index hs hwithin.one).bind
      (g := fun element consumed => decodeElements (decodeValue levels) (front ++ x) count (index + 1)
        consumed >>= fun q => .ok (element :: q.1, q.2))
      (f := fun element s' => Parser.parseElements parseOne count (index + 1) s' >>= fun q =>
        .ok (element :: q.1, q.2)) fun element item rest s' hx hview helement => ?_
    -- the elements that are left begin where this one ends
    have hrest : Within levels count rest := by
      rw [length_append] at helement
      have hnext := hwithin.next (decodeElement_ok helement)
      rwa [hx, drop_left] at hnext
    have hfront : front ++ x = (front ++ item) ++ rest := by rw [hx, append_assoc]
    rw [hfront]
    refine (ih (index + 1) (front ++ item) rest hview hrest).bind
      (g := fun elements consumed => .ok (element :: elements, consumed))
      (f := fun elements s'' => .ok (element :: elements, s''))
      fun elements item' rest' s'' _ hview' _ => ?_
    exact .ok (nil_append rest').symm (by rw [append_nil]) hview'

theorem agrees_array (hv : Views input view) (hone : AgreesBelow view levels parseOne) {s : σ}
    (hs : view s = x) (hwithin : Within (levels + 1) 1 (42 :: x)) :
    Agrees view [42] x (decodeArray (decodeValue levels) (42 :: x)) (Parser.parseArray input parseOne s) := by
  have hfits := hwithin.fits
  rw [decodeArray_eq, Parser.parseArray_eq]
  refine (agrees_length hv .arrayLength 42 hs hfits.line).bind
    (g := fun count consumed => decodeArrayAfter (decodeValue levels) count consumed (42 :: x))
    (f := Parser.arrayAfter parseOne) fun count item rest s' hx hview hlength => ?_
  have hlimit := hfits.array x count _ rfl hlength
  unfold decodeArrayAfter Parser.arrayAfter
  by_cases hnull : count = -1
  · simp only [if_pos hnull]
    exact .ok (nil_append rest).symm (by rw [append_nil]) hview
  · by_cases hneg : count < -1
    · simp only [if_neg hnull, if_pos hneg]
      exact .permanent rfl
    · have hfront : 42 :: x = ([42] ++ item) ++ rest := by rw [hx]; rfl
      have hcast : ((count.toNat : Nat) : Int) = count := Int.toNat_of_nonneg (by omega)
      have hinside : Within levels count.toNat rest := by
        rw [← hcast] at hlength
        have hbelow := hwithin.inside hlength
        rwa [hfront, drop_left] at hbelow
      simp only [if_neg hnull, if_neg hneg]
      rw [if_neg (by omega), hfront]
      refine (agrees_elements hone count.toNat 0 ([42] ++ item) rest hview hinside).bind
        (g := fun elements consumed => .ok (Value.array elements false, consumed))
        (f := fun elements s'' => .ok (Value.array elements false, s''))
        fun elements item' rest' s'' _ hview' _ => ?_
      exact .ok (nil_append rest').symm (by rw [append_nil]) hview'

/-! ### Values -/

theorem Agrees.headed {marker : UInt8} (h : Agrees view [marker] x d p) :
    Agrees view [] (marker :: x) d p := by
  cases h with
  | incomplete h => exact .incomplete h
  | permanent h => exact .permanent h
  | @ok a n s item rest hx hn hview =>
    have hsplit : marker :: x = (marker :: item) ++ rest := by rw [hx]; rfl
    exact .ok hsplit hn hview

theorem agrees_marked (hv : Views input view) {below : Option (σ → Except ParseError (Value × σ))}
    (hbelow : ∀ parseOne, below = some parseOne → ∃ lower, levels = lower + 1 ∧
      AgreesBelow view lower parseOne) (hnone : below = none → levels = 0) (marker : UInt8) {s : σ}
    (hs : view s = x) (hwithin : Within levels 1 (marker :: x)) :
    Agrees view [marker] x (decodeValue levels (marker :: x)) (Parser.parseMarked input below marker s) := by
  have hfits := hwithin.fits.line
  unfold Parser.parseMarked
  split
  · rw [decodeValue.eq_def]
    refine agrees_lineValue hv 43 hs hfits fun _ _ h => ?_
    cases h
  · rw [decodeValue.eq_def]
    refine agrees_lineValue hv 45 hs hfits fun _ _ h => ?_
    cases h
  · rw [decodeValue.eq_def]
    refine agrees_lineValue hv 58 hs hfits fun _ _ h => ?_
    rcases integerFromLine_error h with rfl | rfl <;> rfl
  · rw [decodeValue.eq_def]
    exact agrees_bulkString hv hs hwithin.fits
  · rw [decodeValue.eq_def]
    cases below with
    | none =>
      obtain rfl := hnone rfl
      exact .permanent rfl
    | some parseOne =>
      obtain ⟨lower, rfl, hone⟩ := hbelow parseOne rfl
      exact agrees_array hv hone hs hwithin
  · rw [decodeValue.eq_def]
    exact agrees_lineValue hv 35 hs hfits fun _ _ h => booleanFromMarker_error h ▸ rfl
  · rw [decodeValue.eq_def]
    exact agrees_lineValue hv 95 hs hfits fun _ _ h => nullFromPayload_error h ▸ rfl
  · rename_i h43 h45 h58 h36 h42 h35 h95
    have hline : marker ∉ lineMarkers := by
      simp only [lineMarkers, mem_cons, not_mem_nil, or_false, not_or]
      exact ⟨h43, h45, h58, h35, h95⟩
    rw [decodeValue_unsupported hline h36 h42]
    exact .permanent rfl

/-- **The two parsers agree on values within the limits**, by induction on the levels of nesting. -/
theorem agrees_value (hv : Views input view) (levels : Nat) :
    AgreesBelow view levels (Parser.parseValue input levels) := by
  -- the marker is read first
  have hmarker : ∀ {levels : Nat} {below : Option (σ → Except ParseError (Value × σ))},
      (∀ parseOne, below = some parseOne → ∃ lower, levels = lower + 1 ∧
        AgreesBelow view lower parseOne) → (below = none → levels = 0) →
      AgreesBelow view levels fun s =>
        input.readByte s >>= fun p => Parser.parseMarked input below p.1 p.2 := by
    intro levels below hbelow hnone x s hs hwithin
    beta_reduce
    cases x with
    | nil =>
      rw [decodeValue_nil, hv.readByte_nil hs]
      exact .incomplete rfl
    | cons marker x =>
      obtain ⟨s', hread, hview⟩ := hv.readByte_cons hs
      rw [hread]
      exact (agrees_marked hv hbelow hnone marker hview hwithin).headed
  induction levels with
  | zero => exact hmarker (fun _ h => by cases h) fun _ => rfl
  | succ levels ih =>
    refine @hmarker (levels + 1) (some (Parser.parseValue input levels)) (fun parseOne h => ?_)
      fun h => by cases h
    cases h
    exact ⟨levels, rfl, ih⟩

/-- What agreement says from outside: the values and the bytes consumed, and the kind of error. -/
theorem Agrees.answers (h : Agrees view [] x d p) :
    (∀ a n, d = .ok (a, n) ↔ ∃ s, p = .ok (a, s) ∧ n ≤ x.length ∧ view s = x.drop n) ∧
    ((∃ err, d = .error (.permanent err)) ↔ ∃ err, p = .error err ∧ err.truncated = false) ∧
    ((∃ need, d = .error (.incomplete need)) ↔ ∃ err, p = .error err ∧ err.truncated = true) := by
  cases h with
  | @ok b m s item rest hx hn hview =>
    subst hx hview
    rw [nil_append] at hn
    subst hn
    refine ⟨fun a n => ⟨fun hd => ?_, ?_⟩, by simp, by simp⟩
    · cases hd
      exact ⟨s, rfl, by simp, by simp⟩
    · rintro ⟨s', hp, hle, hleft⟩
      cases hp
      -- the bytes left tell how many were consumed
      have hlength := congrArg List.length hleft
      rw [length_drop, length_append] at hlength
      rw [length_append] at hle
      obtain rfl : n = item.length := by omega
      rfl
  | incomplete h => exact ⟨by simp, by simp [h], by simp [h]⟩
  | permanent h => exact ⟨by simp, by simp [h], by simp [h]⟩

end Agreement

/-! ## The parser on a stream -/

/-- A new `Parser` on a reader that delivers its bytes in these pieces. -/
def newParser (source : Bufio.Source UInt8) : BufioReader :=
  .new bufferSize source

/-- **The two parsers agree** on every input within the limits of the parser, in whatever pieces a
reader delivers it. -/
theorem parsers_agree (source : Bufio.Source UInt8) (hlimits : KeepsLimits source.rest) :
    (∀ value n, decode source.rest = .ok (value, n) ↔
      ∃ r, Parser.parse bufioInput (newParser source) = .ok (value, r) ∧
        n ≤ source.rest.length ∧ r.left = source.rest.drop n) ∧
    ((∃ err, decode source.rest = .error (.permanent err)) ↔
      ∃ err, Parser.parse bufioInput (newParser source) = .error err ∧ err.truncated = false) ∧
    ((∃ need, decode source.rest = .error (.incomplete need)) ↔
      ∃ err, Parser.parse bufioInput (newParser source) = .error err ∧ err.truncated = true) := by
  have hagrees : Agrees Bufio.Reader.left [] source.rest (decode source.rest)
      (Parser.parse bufioInput (newParser source)) :=
    @agrees_value _ _ _ views_bufio maxNestingDepth _ (newParser source) rfl hlimits
  exact hagrees.answers

theorem keepsLimits_of_scalar {marker : UInt8} {x : Bytes} (hmarker : marker ≠ 42)
    (h : Fits (marker :: x)) : KeepsLimits (marker :: x) := by
  intro levels' buf' hvisits
  cases hvisits with
  | value => exact h
  | inside => exact absurd rfl hmarker
  | next _ hnone => cases hnone

/-- `"$3\r\nfoo\r\n"`, torn inside the payload. -/
def tornBulk : Bufio.Source UInt8 where
  pieces := [[36, 51, 13, 10, 102], [111, 111, 13, 10]]
  nonempty := by decide
  eager := false

theorem parsers_agree_tornBulk :
    ∃ r, Parser.parse bufioInput (newParser tornBulk) = .ok (.bulkString [102, 111, 111] false, r) ∧
      r.left = [] := by
  have hfits : Fits tornBulk.rest :=
    { line := by decide
      bulk := by
        intro rest length n _ hlength
        obtain ⟨rfl, -⟩ := Prod.mk.inj (Except.ok.inj
          ((show decodeLength .bulkLength tornBulk.rest = .ok (3, 4) by decide).symm.trans hlength))
        decide
      array := by
        intro rest count n heq
        cases heq }
  have hanswers := (parsers_agree tornBulk (keepsLimits_of_scalar (by decide) hfits)).1
  obtain ⟨r, hparse, -, hleft⟩ := (hanswers (.bulkString [102, 111, 111] false) 9).mp (by rfl)
  exact ⟨r, hparse, hleft⟩

end Stash
