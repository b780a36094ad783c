import Stash.ConnMachine
import Stash.ParserAgreement

/-!
# Input does not depend on how it is cut

`Feed` gets the input of a connection in pieces.  It decodes every frame that is complete, keeps the
rest, and does not look again before as many bytes are there as the unfinished frame needs.

After any pieces, the pending events are the frames of all the bytes together, in order (`Fed`); the
cuts leave no trace.  That holds as long as the limit on the read buffer is kept: where it is
exceeded depends on the cuts, since only the bytes that are left after a `Feed` are counted.
-/

namespace Stash

open Incremental DecimalText List

namespace ConnMachine

/-! ## The loop -/

variable {rest x frame y stream : Bytes} {err : DecodeError} {values : List Value} {limit : Nat}
    {need : Option Nat} {m : ConnMachine}

theorem feedLoop_drains {readBuf : Bytes}
    (h : Drains decode x values rest err) {fuel consumed : Nat} (hx : readBuf.drop consumed = x)
    (hfuel : x.length < fuel) (pending : List ConnEvent) :
    ∃ taken, feedLoop fuel readBuf consumed pending = (pending ++ values.map .request, taken, err) ∧
      readBuf.drop taken = rest := by
  induction h generalizing fuel consumed pending with
  | stop h =>
    obtain ⟨fuel, rfl⟩ := Nat.exists_eq_succ_of_ne_zero (Nat.ne_zero_of_lt hfuel)
    refine ⟨consumed, ?_, hx⟩
    rw [feedLoop, hx, h, map_nil, append_nil]
  | @value x rest value n values err h _ ih =>
    obtain ⟨fuel, rfl⟩ := Nat.exists_eq_succ_of_ne_zero (Nat.ne_zero_of_lt hfuel)
    have hpos := decode_pos h
    have hle := stays_decode.le_length h
    have hshort : (x.drop n).length < fuel := by
      rw [length_drop]
      omega
    have hdrop : readBuf.drop (consumed + n) = x.drop n := by rw [← hx, drop_drop]
    obtain ⟨taken, hloop, htaken⟩ := ih hdrop hshort (pending ++ [.request value])
    refine ⟨taken, ?_, htaken⟩
    rw [feedLoop, hx, h]
    simpa using hloop

/-! ## The limit on the read buffer -/

/-- **The input fits**: each complete frame, and the frame that is unfinished, with the number of
bytes it is known to need.  A frame is unfinished at the end of the input, or in front of the byte
that makes it malformed. -/
structure FitsReadBuffer (limit : Nat) (stream : Bytes) : Prop where
  frames : ∀ front frame rest value values err, stream = front ++ (frame ++ rest) →
    Drains decode front values [] err → decode frame = .ok (value, frame.length) →
      frame.length ≤ limit
  tail : ∀ x y values frame need, stream = x ++ y → Drains decode x values frame (.incomplete need) →
    (y = [] ∨ ∃ b rest err, y = b :: rest ∧ decode (frame ++ [b]) = .error (.permanent err)) →
      frame.length ≤ limit ∧ need.getD 0 ≤ limit

/-- The bytes an unfinished frame needs are there when it is finished. -/
theorem need_le (h : decode frame = .error (.incomplete need)) (hframe : frame.length < maxSlice)
    (hmore : decode (frame ++ y) ≠ .error (.incomplete need)) (hle : (frame ++ y).length ≤ limit) :
    need.getD 0 ≤ limit := by
  cases need with
  | none => exact Nat.zero_le limit
  | some total =>
    have hhint := (stays_decode.hint h rfl hframe).2.2 y
    by_contra hlimit
    have hlong : (frame ++ y).length < total := lt_of_le_of_lt hle (not_le.mp hlimit)
    exact hmore (hhint hlong)

theorem length_completed (h : decode frame = .error (.incomplete need)) {b : UInt8} {value : Value}
    {n : Nat} (hvalue : decode (frame ++ [b]) = .ok (value, n)) : n = (frame ++ [b]).length := by
  have hle := stays_decode.le_length hvalue
  by_contra hne
  have hshort : n ≤ frame.length := by
    rw [length_append, length_singleton] at hle hne
    omega
  have htake := stays_decode.take hvalue (frame.drop n)
  rw [take_append_of_le_length hshort, take_append_drop, h] at htake
  cases htake

/-- **At no point is the unfinished frame over the limit.** -/
theorem FitsReadBuffer.unfinished (hfits : FitsReadBuffer limit stream) (hlimit : limit < maxSlice)
    (hstream : stream = x ++ y) (h : Drains decode x values frame (.incomplete need)) :
    frame.length ≤ limit ∧ need.getD 0 ≤ limit := by
  -- one byte after the other, up to where the frame is completed, spoiled or cut off
  induction y generalizing x values frame need with
  | nil => exact hfits.tail x [] values frame need hstream h (.inl rfl)
  | cons b y ih =>
    have hlength : (frame ++ [b]).length = frame.length + 1 := length_append
    have hstep : (frame ++ [b]).length ≤ limit → decode (frame ++ [b]) ≠ .error (.incomplete need) →
        frame.length ≤ limit ∧ need.getD 0 ≤ limit := by
      intro hle hmore
      exact ⟨by omega, need_le h.error (by omega) hmore hle⟩
    cases hmore : decode (frame ++ [b]) with
    | ok p =>
      obtain ⟨value, n⟩ := p
      obtain rfl := length_completed h.error hmore
      obtain ⟨front, rfl, hfront⟩ := h.split stays_decode decode_nil
      have hframe := hfits.frames front (frame ++ [b]) y value values _ (by simp [hstream]) hfront hmore
      refine hstep hframe ?_
      rw [hmore]
      exact fun h' => by cases h'
    | error err =>
      cases err with
      | permanent err =>
        exact hfits.tail x (b :: y) values frame need hstream h (.inr ⟨b, y, err, rfl, hmore⟩)
      | incomplete need' =>
        have hnext : Drains decode (x ++ [b]) (values ++ []) (frame ++ [b]) (.incomplete need') :=
          h.append stays_decode (.stop hmore)
        obtain ⟨hframe, hneed⟩ := ih (by simp [hstream]) hnext
        by_cases heq : need' = need
        · subst heq
          exact ⟨by omega, hneed⟩
        · refine hstep hframe fun h' => heq ?_
          rw [hmore] at h'
          injection Except.error.inj h'

/-! ## Feeding -/

/-- **What a machine holds that was fed `x`**: the requests among the events are the frames of `x`, in
order; the read buffer is what is left behind them.  A malformed frame is the last event. -/
inductive Fed (limit : Nat) (x : Bytes) (m : ConnMachine) : Prop
  | reading {values : List Value} {rest : Bytes} {need : Option Nat}
    (drains : Drains decode x values rest (.incomplete need)) (limited : m.maxReadBuffer = limit)
    (state : m.state = .active) (pending : m.pending = values.map .request)
    (readBuf : m.readBuf = rest) (resumeAt : m.resumeAt = need.getD 0)
  | refused {values : List Value} {rest : Bytes} {err : ParseError}
    (drains : Drains decode x values rest (.permanent err)) (state : m.state = .closing)
    (pending : m.pending = values.map .request ++ [.protoErr (.malformed err)])

theorem fed_new (limit maxWriteBuffer : Nat) : Fed limit [] (new limit maxWriteBuffer) :=
  .reading (.stop decode_nil) rfl rfl rfl rfl rfl

theorem feed_eq (hstate : m.state = .active) {data : Bytes}
    (hresume : ¬(0 < m.resumeAt ∧ (m.readBuf ++ data).length < m.resumeAt))
    (h : Drains decode (m.readBuf ++ data) values rest err) :
    (∀ e, err = .permanent e → (m.feed data).1 =
      { m with
        readBuf := m.readBuf ++ data
        pending := m.pending ++ values.map ConnEvent.request }.enterProtocolError (.malformed e)) ∧
    ∀ need, err = .incomplete need → (m.feed data).1 =
      { m with
        pending := m.pending ++ values.map ConnEvent.request
        resumeAt := need.getD 0
        readBuf := rest }.checkReadBuffer := by
  obtain ⟨taken, hloop, hrest⟩ := feedLoop_drains h drop_zero (Nat.lt_succ_self _) m.pending
  unfold feed
  rw [if_neg (not_not.mpr hstate)]
  simp only [if_neg hresume, hloop]
  constructor
  · rintro e rfl
    rfl
  · rintro need rfl
    subst hrest
    rfl

/-- **What `Feed` does**: it is rejected, or waits for more bytes, or decodes the complete frames, or
refuses the input. -/
inductive Feeds (m : ConnMachine) (data : Bytes) : ConnMachine → Prop
  | rejected (hstate : m.state ≠ .active) : Feeds m data m
  | waits (hstate : m.state = .active) (hshort : (m.readBuf ++ data).length < m.resumeAt) :
    Feeds m data { m with readBuf := m.readBuf ++ data }
  | decoded {values : List Value} {rest : Bytes} {need : Option Nat} (hstate : m.state = .active)
    (drains : Drains decode (m.readBuf ++ data) values rest (.incomplete need))
    (hrest : rest.length ≤ m.maxReadBuffer) (hneed : need.getD 0 ≤ m.maxReadBuffer) :
    Feeds m data
      { m with
        pending := m.pending ++ values.map ConnEvent.request
        resumeAt := need.getD 0
        readBuf := rest }
  | refused {values : List Value} {rest readBuf : Bytes} {err : DecodeError} {resumeAt : Nat}
    {proto : ProtoError} (hstate : m.state = .active)
    (drains : Drains decode (m.readBuf ++ data) values rest err) :
    Feeds m data ({ m with
      pending := m.pending ++ values.map ConnEvent.request
      resumeAt := resumeAt
      readBuf := readBuf }.enterProtocolError proto)

theorem feeds_feed (m : ConnMachine) (data : Bytes) : Feeds m data (m.feed data).1 := by
  by_cases hstate : m.state = .active
  · by_cases hwait : 0 < m.resumeAt ∧ (m.readBuf ++ data).length < m.resumeAt
    · have hfeed : (m.feed data).1 = { m with readBuf := m.readBuf ++ data } := by
        unfold feed
        rw [if_neg (not_not.mpr hstate)]
        simp only [if_pos hwait]
      rw [hfeed]
      exact .waits hstate hwait.2
    · obtain ⟨values, rest, err, hdrains⟩ := exists_drains decode_pos stays_decode (m.readBuf ++ data)
      obtain ⟨hpermanent, hincomplete⟩ := feed_eq hstate hwait hdrains
      cases err with
      | permanent err =>
        rw [hpermanent err rfl]
        exact .refused hstate hdrains
      | incomplete need =>
        rw [hincomplete need rfl]
        unfold checkReadBuffer
        split
        · exact .refused hstate hdrains
        · rename_i hfits
          exact .decoded hstate hdrains (not_lt.mp fun h => hfits (.inl h))
            (not_lt.mp fun h => hfits (.inr h))
  · have hfeed : (m.feed data).1 = m := by
      unfold feed
      rw [if_pos hstate]
    rw [hfeed]
    exact .rejected hstate

theorem feed_err (h : m.state = .active) (data : Bytes) : (m.feed data).2 = none := by
  unfold feed
  rw [if_neg (not_not.mpr h)]
  simp only
  split
  · rfl
  · split <;> rfl

/-- **One `Feed`.** -/
theorem Fed.feed (hm : Fed limit x m)
    (hlimit : limit < maxSlice) {data : Bytes} (hfits : FitsReadBuffer limit stream)
    (hstream : stream = x ++ data ++ y) : Fed limit (x ++ data) (m.feed data).1 := by
  cases hm with
  | refused drains state pending =>
    have hfeed : (m.feed data).1 = m := by
      unfold ConnMachine.feed
      rw [if_pos (by rw [state]; decide)]
    rw [hfeed]
    exact .refused (drains.fatal stays_decode rfl data) state pending
  | @reading values rest need drains limited state pending readBuf resumeAt =>
    by_cases hwait : 0 < m.resumeAt ∧ (m.readBuf ++ data).length < m.resumeAt
    · -- the frame cannot be complete yet, and `Decode` would say the same
      have hfeed : (m.feed data).1 = { m with readBuf := m.readBuf ++ data } := by
        unfold ConnMachine.feed
        rw [if_neg (not_not.mpr state)]
        simp only [if_pos hwait]
      rw [hfeed]
      rw [readBuf, resumeAt] at hwait
      obtain ⟨total, rfl⟩ : ∃ total, need = some total := by
        cases need with
        | none => exact absurd hwait.1 (Nat.lt_irrefl 0)
        | some total => exact ⟨total, rfl⟩
      have hrest := (hfits.unfinished hlimit (by rw [hstream, append_assoc]) drains).1
      have hsame := (stays_decode.hint drains.error rfl (lt_of_le_of_lt hrest hlimit)).2.2 data hwait.2
      have hdrains := drains.append stays_decode (.stop hsame)
      rw [append_nil] at hdrains
      exact .reading hdrains limited state pending (congrArg (· ++ data) readBuf) resumeAt
    · obtain ⟨values', rest', err, hmore⟩ := exists_drains decode_pos stays_decode (rest ++ data)
      have hdrains := drains.append stays_decode hmore
      rw [← readBuf] at hmore
      have heq := feed_eq state hwait hmore
      cases err with
      | permanent err =>
        rw [heq.1 err rfl]
        exact .refused hdrains rfl (by simp [enterProtocolError, pending])
      | incomplete need' =>
        have hunfinished := hfits.unfinished hlimit hstream hdrains
        have hcheck : ¬(m.maxReadBuffer < rest'.length ∨ m.maxReadBuffer < need'.getD 0) := by
          rw [limited]
          omega
        rw [heq.2 need' rfl, checkReadBuffer, if_neg hcheck]
        exact .reading hdrains limited state (by simp [pending]) rfl rfl

/-- The `Feed` calls of a connection; a call that is rejected changes nothing. -/
def feedAll (m : ConnMachine) (chunks : List Bytes) : ConnMachine :=
  chunks.foldl (fun m data => (m.feed data).1) m

theorem Fed.feedAll (hlimit : limit < maxSlice) (hfits : FitsReadBuffer limit stream)
    {chunks : List Bytes} (hm : Fed limit x m) (hstream : stream = x ++ chunks.flatten) :
    Fed limit stream (m.feedAll chunks) := by
  induction chunks generalizing x m with
  | nil =>
    rw [flatten_nil, append_nil] at hstream
    subst hstream
    exact hm
  | cons data chunks ih =>
    rw [flatten_cons, ← append_assoc] at hstream
    exact ih (hm.feed hlimit hfits hstream) hstream

/-- The last event of an input, if it is malformed. -/
def lastEvent : DecodeError → List ConnEvent
  | .incomplete _ => []
  | .permanent err => [.protoErr (.malformed err)]

theorem Fed.pending_eq (hm : Fed limit x m) (h : Drains decode x values rest err) :
    m.pending = values.map .request ++ lastEvent err ∧
      m.state = (if err.asksForMore then .active else .closing) ∧
        (m.state = .active → m.readBuf = rest) := by
  cases hm with
  | reading drains _ state pending readBuf _ =>
    obtain ⟨rfl, rfl, rfl⟩ := drains.unique h
    exact ⟨by simp [lastEvent, pending], state, fun _ => readBuf⟩
  | refused drains state pending =>
    obtain ⟨rfl, rfl, rfl⟩ := drains.unique h
    exact ⟨pending, state, fun hactive => by rw [state] at hactive; cases hactive⟩

/-- **Input does not depend on the pieces it comes in.**  The events are the complete frames of the
stream, in order, and at the end of a malformed stream its error. -/
theorem feed_chunking (limit maxWriteBuffer : Nat) (hlimit : limit < maxSlice)
    (chunks chunks' : List Bytes) (hsame : chunks'.flatten = chunks.flatten)
    (hfits : FitsReadBuffer limit chunks.flatten) :
    ((new limit maxWriteBuffer).feedAll chunks').pending =
        ((new limit maxWriteBuffer).feedAll chunks).pending ∧
      ((new limit maxWriteBuffer).feedAll chunks').state =
        ((new limit maxWriteBuffer).feedAll chunks).state ∧
      (((new limit maxWriteBuffer).feedAll chunks).state = .active →
        ((new limit maxWriteBuffer).feedAll chunks').readBuf =
          ((new limit maxWriteBuffer).feedAll chunks).readBuf) ∧
      ∃ values rest err, Drains decode chunks.flatten values rest err ∧
        ((new limit maxWriteBuffer).feedAll chunks).pending = values.map .request ++ lastEvent err := by
  obtain ⟨values, rest, err, hdrains⟩ := exists_drains decode_pos stays_decode chunks.flatten
  have hfed : Fed limit chunks.flatten ((new limit maxWriteBuffer).feedAll chunks) :=
    (fed_new limit maxWriteBuffer).feedAll hlimit hfits rfl
  have hfed' : Fed limit chunks.flatten ((new limit maxWriteBuffer).feedAll chunks') :=
    (fed_new limit maxWriteBuffer).feedAll hlimit hfits hsame.symm
  obtain ⟨hpending, hstate, hbuf⟩ := hfed.pending_eq hdrains
  obtain ⟨hpending', hstate', hbuf'⟩ := hfed'.pending_eq hdrains
  refine ⟨hpending'.trans hpending.symm, hstate'.trans hstate.symm, fun hactive => ?_,
    values, rest, err, hdrains, hpending⟩
  exact (hbuf' (hstate'.trans (hstate.symm.trans hactive))).trans (hbuf hactive).symm

theorem fitsReadBuffer_of_length_le (h : Drains decode stream values rest (.incomplete need))
    (hstream : stream.length ≤ limit) (hneed : need.getD 0 ≤ limit) : FitsReadBuffer limit stream where
  frames front frame rest _ _ _ heq _ _ := by
    rw [heq, length_append, length_append] at hstream
    omega
  tail x y values' frame need' heq hdrains hend := by
    rcases hend with rfl | ⟨b, y, err, rfl, hspoiled⟩
    · rw [append_nil] at heq
      subst heq
      obtain ⟨-, rfl, hsame⟩ := h.unique hdrains
      obtain rfl : need = need' := by injection hsame
      obtain ⟨front, rfl, -⟩ := h.split stays_decode decode_nil
      rw [length_append] at hstream
      exact ⟨by omega, hneed⟩
    · -- a frame that is malformed somewhere makes the whole stream malformed
      have hfatal := (hdrains.append stays_decode (.stop hspoiled)).fatal stays_decode rfl y
      rw [append_assoc, singleton_append, ← heq] at hfatal
      obtain ⟨-, -, hsame⟩ := h.unique hfatal
      cases hsame

/-- Two requests and a part of a third, in one piece and torn inside the frames. -/
theorem feed_chunking_torn :
    ((new 64 64).feedAll [ascii ":1\r", ascii "\n$2\r\na", ascii "b\r\n$4\r\n"]).pending =
      ((new 64 64).feedAll [ascii ":1\r\n$2\r\nab\r\n$4\r\n"]).pending := by
  have hdrains : Drains decode [ascii ":1\r\n$2\r\nab\r\n$4\r\n"].flatten
      [.integer 1, .bulk (ascii "ab")] (ascii "$4\r\n") (.incomplete (some 10)) :=
    .value rfl (.value rfl (.stop rfl))
  exact (feed_chunking 64 64 (by decide) _ _ rfl
    (fitsReadBuffer_of_length_le hdrains (by decide) (by decide))).1

/-! ## The two networking modes -/

/-- **The loop of `handleConnection`** up to the first `Parse` that fails: the requests it hands on,
and the error. -/
inductive Reads : BufioReader → List Value → ParseError → Prop
  | failed {r : BufioReader} {err : ParseError} (h : Parser.parse bufioInput r = .error err) :
    Reads r [] err
  | request {r r' : BufioReader} {value : Value} {values : List Value} {err : ParseError}
    (h : Parser.parse bufioInput r = .ok (value, r')) (hrest : Reads r' values err) :
    Reads r (value :: values) err

/-- The parser reads what the decoder reads, frame by frame. -/
theorem reads_of_drains (h : Drains decode x values rest err) {r : BufioReader} (hr : r.left = x)
    (hwithin : ∀ count, Within maxNestingDepth count x) :
    ∃ last, Reads r values last ∧ last.truncated = err.asksForMore := by
  -- one `Parse` answers as one `Decode` does, and what it leaves keeps the limits too
  induction h generalizing r with
  | @stop x err h =>
    obtain ⟨-, hpermanent, hincomplete⟩ :=
      (agrees_value views_bufio maxNestingDepth hr (hwithin 1)).answers
    cases err with
    | permanent err =>
      obtain ⟨last, hparse, hlast⟩ := hpermanent.mp ⟨err, h⟩
      exact ⟨last, .failed hparse, hlast⟩
    | incomplete need =>
      obtain ⟨last, hparse, hlast⟩ := hincomplete.mp ⟨need, h⟩
      exact ⟨last, .failed hparse, hlast⟩
  | @value x rest value n values err h _ ih =>
    obtain ⟨hvalue, -⟩ := (agrees_value views_bufio maxNestingDepth hr (hwithin 1)).answers
    obtain ⟨r', hparse, -, hleft⟩ := (hvalue value n).mp h
    obtain ⟨last, hreads, hlast⟩ := ih hleft fun count => (hwithin (count + 1)).next h
    exact ⟨last, .request hparse hreads, hlast⟩

/-- **Both networking modes read the same requests** from the same bytes, whatever pieces these come
in.  Where the parser first fails, the machine waits for more bytes if it was the stream that ended,
and else refuses the input. -/
theorem modes_read_alike (source : Bufio.Source UInt8) (chunks : List Bytes)
    (hsame : chunks.flatten = source.rest)
    (hwithin : ∀ count, Within maxNestingDepth count source.rest) (maxWriteBuffer : Nat)
    (hlimit : limit < maxSlice) (hfits : FitsReadBuffer limit source.rest) :
    ∃ values last err, Reads (newParser source) values last ∧ last.truncated = err.asksForMore ∧
      ((new limit maxWriteBuffer).feedAll chunks).pending = values.map .request ++ lastEvent err := by
  obtain ⟨values, rest, err, hdrains⟩ := exists_drains decode_pos stays_decode source.rest
  obtain ⟨last, hreads, hlast⟩ := reads_of_drains hdrains (r := newParser source) rfl hwithin
  have hfed := (fed_new limit maxWriteBuffer).feedAll hlimit hfits hsame.symm
  exact ⟨values, last, err, hreads, hlast, (hfed.pending_eq hdrains).1⟩

/-- `":7\r\n"`, torn before the end of the line. -/
def tornInteger : Bufio.Source UInt8 where
  pieces := [[58, 55, 13], [10]]
  nonempty := by decide
  eager := true

theorem within_tornInteger (count : Nat) : Within maxNestingDepth count tornInteger.rest := by
  have hfits : ∀ y, y = tornInteger.rest ∨ y = [] → Fits y := by
    rintro y (rfl | rfl) <;>
      exact ⟨by decide, fun _ _ _ h => by simp [tornInteger, Bufio.Source.rest] at h,
        fun _ _ _ h => by simp [tornInteger, Bufio.Source.rest] at h⟩
  intro levels' buf' hvisits
  cases hvisits with
  | value => exact hfits _ (.inl rfl)
  | next hvalue hvisits =>
    cases hvalue
    cases hvisits with
    | value => exact hfits _ (.inr rfl)
    | next hvalue => cases hvalue

theorem modes_read_alike_tornInteger :
    ∃ values last err, Reads (newParser tornInteger) values last ∧
      last.truncated = err.asksForMore ∧
      ((new 64 64).feedAll [[58], [55, 13, 10]]).pending = values.map .request ++ lastEvent err := by
  have hdrains : Drains decode tornInteger.rest [.integer 7] [] (.incomplete none) :=
    .value rfl (.stop rfl)
  exact modes_read_alike tornInteger [[58], [55, 13, 10]] rfl within_tornInteger 64 (by decide)
    (fitsReadBuffer_of_length_le hdrains (by decide) (by decide))

end ConnMachine

end Stash
