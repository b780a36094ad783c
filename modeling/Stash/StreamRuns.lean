import Stash.Machine
import Stash.StoredValues

/-!
# Streams over whole runs

The entries of a stream ascend in their IDs, the last ID is that of the last entry, and the text of
every ID is read back as that ID, whatever raw IDs the calls give and however the clock behaves.  The
sequence number of an automatic ID is a machine integer, though: where a client has used up the
largest one, and the clock has not passed the milliseconds of that ID, the next automatic ID is
negative.

A read finds the entries above an ID by binary search.
-/

namespace Stash

open DecimalText Machine List

instance (id : StreamID) : Decidable id.Nonneg :=
  inferInstanceAs (Decidable (_ ∧ _))

instance (id : StreamID) : Decidable id.Bounded :=
  inferInstanceAs (Decidable (_ ∧ _))

instance (left right : StreamID) : Decidable (left.Before right) :=
  inferInstanceAs (Decidable (_ < _))

/-! ## The ID that is admitted -/

/-- The ID has the largest sequence number, and the clock has not passed its milliseconds. -/
def StreamID.UsedUp (id : StreamID) (now : Int) : Prop :=
  id.sequence = 2 ^ 63 - 1 ∧ now ≤ id.milliseconds

theorem nextAutoID_nonneg {last : Option StreamID} {now : Int} (hnow : 0 ≤ now)
    (hbounded : ∀ id, last = some id → id.Bounded) (hlast : ∀ id, last = some id → id.Nonneg)
    (hleft : ∀ id, last = some id → ¬id.UsedUp now) : (nextAutoID last now).Nonneg := by
  cases last with
  | none => exact ⟨hnow, le_refl 0⟩
  | some id =>
    have hid := hlast id rfl
    have hnext : now ≤ id.milliseconds → 0 ≤ wrap64 (id.sequence + 1) := by
      intro hle
      have hmax : id.sequence ≠ 2 ^ 63 - 1 := fun hmax => hleft id rfl ⟨hmax, hle⟩
      have hrange := (hbounded id rfl).2
      have hseq := hid.2
      rw [wrap64_of_inInt64 (by unfold InInt64 at *; omega)]
      omega
    unfold nextAutoID
    simp only
    split
    · exact ⟨hid.1, hnext (by omega)⟩
    · split
      · exact ⟨hnow, hnext (by omega)⟩
      · exact ⟨hnow, le_refl 0⟩

/-- **An admitted ID is not negative**, unless the sequence numbers are used up. -/
theorem admitID_nonneg {last : Option StreamID} {rawID : Bytes} {now : Int} {id : StreamID}
    (h : admitID last rawID now = .ok id) (hnow : 0 ≤ now)
    (hbounded : ∀ id, last = some id → id.Bounded) (hlast : ∀ id, last = some id → id.Nonneg)
    (hleft : rawID = ascii "*" → ∀ id, last = some id → ¬id.UsedUp now) : id.Nonneg := by
  by_cases hstar : rawID = ascii "*"
  · rw [hstar, admitID_star] at h
    cases h
    exact nextAutoID_nonneg hnow hbounded hlast (hleft hstar)
  · exact (parseStreamAddID_ok (admitID_parsed hstar h).1).1

/-! ## Streams in order -/

/-- **A stream in order**: it ascends, its last ID is that of its last entry, no ID is negative and
every ID is read back from its text. -/
structure StreamValue.InOrder (stream : StreamValue) : Prop where
  ascending : stream.entries.Pairwise fun left right => left.id.Before right.id
  latest : lastStreamID stream.entries = some stream.lastID
  nonneg : ∀ record ∈ stream.entries, record.id.Nonneg
  readBack : ∀ record ∈ stream.entries, parseStreamAddID record.idText = .ok record.id

variable {stream : StreamValue}

theorem StreamValue.hasEntries_of_ne_nil (h : stream.entries ≠ []) : stream.hasEntries = true := by
  by_contra hnone
  have hlatest := stream.latest
  rw [if_neg hnone, lastStreamID, Option.map_eq_none_iff, List.getLast?_eq_none_iff] at hlatest
  exact h hlatest

theorem StreamValue.inOrder (hne : stream.entries ≠ [])
    (hnonneg : ∀ record ∈ stream.entries, record.id.Nonneg) : stream.InOrder where
  ascending := stream.ascending hnonneg
  latest := by rw [stream.latest, hasEntries_of_ne_nil hne, if_pos rfl]
  nonneg := hnonneg
  readBack := fun record hrecord =>
    parseStreamAddID_text (hnonneg record hrecord) (stream.bounded record hrecord)

/-- The last ID is not negative if none is. -/
theorem StreamValue.last_nonneg (h : ∀ record ∈ stream.entries, record.id.Nonneg) :
    ∀ id, stream.last = some id → id.Nonneg := by
  intro id hid
  rw [last_eq, lastStreamID, Option.map_eq_some_iff] at hid
  obtain ⟨record, hrecord, rfl⟩ := hid
  exact h record (mem_of_getLast? hrecord)

/-! ## Runs -/

/-- A call of `XAdd`. -/
structure XAddCall where
  key : Bytes
  rawID : Bytes
  values : List Bytes
  env : Env

namespace XAddCall

/-- The store and the answer after a call. -/
def run (s : Store) (c : XAddCall) : Store × Except StorageError (Bytes × List Bytes) :=
  s.xAdd c.key c.rawID c.values c.env

/-- A call, whatever it answers. -/
def step (s : Store) (c : XAddCall) : Option Store :=
  some (c.run s).1

/-- An automatic ID is asked for while the sequence numbers of the stream are used up. -/
def Overruns (s : Store) (c : XAddCall) : Prop :=
  c.rawID = ascii "*" ∧ ∃ value stream, s.lookup c.key = some value ∧
    value.payload = .stream stream ∧ stream.lastID.UsedUp (c.env.now 0)

end XAddCall

namespace Store

variable {s : Store} {key : Bytes}

/-- The streams of the store are in order, and a call that is rejected leaves its stream. -/
def StreamsInOrder (s : Store) : Prop :=
  ∀ key value stream, s.lookup key = some value → value.payload = .stream stream →
    stream.InOrder ∧ ∀ c : XAddCall, c.key = key → ∀ err, (c.run s).2 = .error err →
      (c.run s).1.lookup key = some value

/-- What calls of `XAdd` keep: streams have no deadline and no negative ID. -/
def NonnegStream (value : ValueObject) : Prop :=
  ∀ stream, value.payload = .stream stream →
    value.expiresAt = 0 ∧ ∀ record ∈ stream.entries, record.id.Nonneg

/-- A write that fails leaves a value without a deadline. -/
theorem lookup_writeKey_of_error {ρ : Type} {env : Env} {fn : KeyWrite → WriteAction ρ}
    {value : ValueObject} {err : StorageError} (hlookup : s.lookup key = some value)
    (hforever : value.expiresAt = 0) (herr : (s.writeKey key env fn).2 = .error err) :
    (s.writeKey key env fn).1.lookup key = some value := by
  have hlive : ∀ now, liveValue (s.lookup key) now = s.lookup key := by
    intro now
    rw [hlookup, liveValue, Option.filter_some, hforever, isExpired_zero]
    rfl
  have hprepare : s.prepareExistingValueLocked key (env.clock 0).millis = (s, some value) := by
    unfold prepareExistingValueLocked
    rw [hlookup]
    simp only [hforever, isExpired_zero, Bool.false_eq_true, if_false]
  unfold writeKey at herr ⊢
  simp only [hprepare] at herr ⊢
  rw [lookup_publish_if]
  generalize fn ⟨some value, env.clock 0, s.maxMemoryEnabled⟩ = action at herr ⊢
  cases action with
  | fail => exact hlookup
  | inPlace => cases herr
  | commit newValue result =>
    unfold perform commit at herr ⊢
    simp only at herr ⊢
    cases hlimit : s.maxMemoryEnabled with
    | false => simp [hlimit] at herr
    | true =>
      simp only [hlimit, if_true] at herr ⊢
      have hkept := lookup_ensureMemory (mem_singleton_self key)
        (hlive ((env.after 2).now 0))
        (approximateValueObjectSize key newValue - sizeOfCurrent key (some value))
      generalize s.ensureMemoryAvailableLocked _ [key] (env.after 2) = r at hkept herr ⊢
      obtain ⟨t, err | evicted⟩ := r
      · exact hkept.trans hlookup
      · cases herr

/-- The stream that an action stores has one more entry, with an admitted ID. -/
theorem nonnegStream_streamPayload {stream : StreamValue}
    {hpaired : ∀ record ∈ stream.entries, Payload.PairedValues record.values} {rawID : Bytes}
    {values : List Bytes} {hvalues : Payload.PairedValues values} {now : Instant}
    {payload : {payload : Payload // payload.Sound}} {text : Bytes} {stamp : Int}
    (h : streamPayload stream hpaired rawID values hvalues now = .ok (payload, text))
    (hnonneg : ∀ record ∈ stream.entries, record.id.Nonneg)
    (hleft : rawID = ascii "*" → ∀ id, stream.last = some id → ¬id.UsedUp now.millis) :
    NonnegStream ⟨payload, 0, stamp, payload.2⟩ := by
  unfold streamPayload at h
  split at h
  · cases h
  · rename_i id hadmit
    obtain ⟨rfl, -⟩ := Prod.mk.inj (Except.ok.inj h)
    rintro _ ⟨⟩
    refine ⟨rfl, fun record hrecord => ?_⟩
    rcases mem_append.mp hrecord with hrecord | hrecord
    · exact hnonneg record hrecord
    · obtain rfl := mem_singleton.mp hrecord
      exact admitID_nonneg hadmit now.millis_nonneg stream.last_bounded
        (stream.last_nonneg hnonneg) hleft

/-- **A call keeps the streams in order** unless it overruns its stream. -/
theorem nonnegStream_step {s' : Store} {c : XAddCall} (h : s.Holds NonnegStream)
    (hc : ¬c.Overruns s) (hstep : c.step s = some s') : s'.Holds NonnegStream := by
  cases hstep
  change (s.xAdd c.key c.rawID c.values c.env).1.Holds NonnegStream
  unfold xAdd
  split
  · have hkind : ∀ write, (xAddAction c.rawID c.values ‹_› write).SameKind write.current := by
      intro write
      grind [xAddAction, WriteAction.SameKind]
    refine kept_holds.writeKey h c.key c.env (fun value hvalue => ?_) (hkind _)
    rcases hcurrent : liveValue (s.lookup c.key) (c.env.now 0) with
      _ | ⟨data | items | rep | stream | rep | rep, expiresAt, stamp, hsound⟩
    all_goals simp only [hcurrent, xAddAction] at hvalue
    case none =>
      split at hvalue
      · cases hvalue
      · cases hvalue
        exact nonnegStream_streamPayload ‹_› (fun _ h => by cases h) fun _ _ h => by cases h
    case some.stream =>
      have hlookup := (Option.filter_eq_some_iff.mp hcurrent).1
      obtain ⟨rfl, hnonneg⟩ := h c.key _ hlookup stream rfl
      simp only [ite_clone] at hvalue
      split at hvalue
      · cases hvalue
      · cases hvalue
        refine nonnegStream_streamPayload ‹_› hnonneg fun hstar id hid hused => hc ?_
        have hlast : stream.lastID = id := by
          unfold StreamValue.last at hid
          split at hid
          · exact Option.some.inj hid
          · cases hid
        exact ⟨hstar, _, stream, hlookup, rfl, hlast ▸ hused⟩
    all_goals cases hvalue
  · exact h

/-- **Stream IDs strictly increase** in every run in which no automatic ID is asked for while the
sequence numbers are used up. -/
theorem stream_ids_ascend (start : Store)
    (hstart : start.Holds fun value => ∀ stream, value.payload ≠ .stream stream)
    (calls : List XAddCall) (hcalls : Heeds XAddCall.step (fun s c => ¬c.Overruns s) calls start) :
    Always XAddCall.step StreamsInOrder calls start := by
  have hinv : start.Holds NonnegStream := fun key value hvalue stream hstream =>
    absurd hstream (hstart key value hvalue stream)
  refine (always_of_heeds nonnegStream_step hinv hcalls).mono fun s hs => ?_
  intro key value stream hvalue hstream
  obtain ⟨hforever, hnonneg⟩ := hs key value hvalue stream hstream
  have hsound := value.sound
  rw [hstream] at hsound
  refine ⟨StreamValue.inOrder hsound.1 hnonneg, ?_⟩
  rintro c rfl err herr
  unfold XAddCall.run xAdd at herr ⊢
  split at herr
  · rw [dif_pos ‹_›]
    exact lookup_writeKey_of_error hvalue hforever herr
  · rw [dif_neg ‹_›]
    exact hvalue

/-- The IDs of the stream under a key. -/
def streamIDs (s : Store) (key : Bytes) : List StreamID :=
  match s.lookup key with
  | some ⟨.stream stream, _, _, _⟩ => stream.entries.map StreamRecord.id
  | _ => []

/-- The streams of a store in order have no negative ID. -/
theorem StreamsInOrder.nonneg (h : s.StreamsInOrder) : ∀ id ∈ s.streamIDs key, id.Nonneg := by
  intro id hid
  unfold streamIDs at hid
  split at hid
  · obtain ⟨record, hrecord, rfl⟩ := mem_map.mp hid
    exact (h key _ _ ‹_› rfl).1.nonneg record hrecord
  · cases hid

/-- A call at five milliseconds after the epoch. -/
def callAtFive (rawID : Bytes) : XAddCall :=
  ⟨ascii "s", rawID, [ascii "f", ascii "v"], .frozen (.ofMillis 5 (by decide))⟩

theorem stream_ids_ascend_five :
    Always XAddCall.step StreamsInOrder
      [callAtFive (ascii "5-9223372036854775807"), callAtFive (ascii "6-0")]
      (.newStore fun _ => 0) := by
  refine stream_ids_ascend (.newStore fun _ => 0) (fun _ _ h => by cases h) _ fun s hs => ⟨?_, ?_⟩
  · rintro ⟨hstar, -⟩
    exact absurd hstar (by decide)
  · refine fun s hs => ⟨?_, trivial⟩
    rintro ⟨hstar, -⟩
    exact absurd hstar (by decide)

/-- After the largest sequence number an automatic ID in the same millisecond is negative. -/
theorem auto_id_wraps_around :
    ¬Always XAddCall.step StreamsInOrder
      [callAtFive (ascii "5-9223372036854775807"), callAtFive (ascii "*")] (.newStore fun _ => 0) := by
  intro h
  have hfinal := (h.2 _ rfl).2 _ rfl
  have hids : ⟨5, -9223372036854775808⟩ ∈
      (((callAtFive (ascii "*")).run ((callAtFive (ascii "5-9223372036854775807")).run
        (.newStore fun _ => 0)).1).1).streamIDs (ascii "s") := by decide +kernel
  exact absurd (StreamsInOrder.nonneg hfinal _ hids) (by decide)

end Store

/-! ## Reading -/

/-- **Binary search** finds where a predicate begins to hold. -/
theorem searchLoop_spec {f : Nat → Bool} (hmono : ∀ a b, a ≤ b → f a = true → f b = true)
    {i j : Nat} (hij : i ≤ j) :
    i ≤ searchLoop f i j ∧ searchLoop f i j ≤ j ∧
      (∀ k, i ≤ k → k < searchLoop f i j → f k = false) ∧
        ∀ k, searchLoop f i j ≤ k → k < j → f k = true := by
  fun_induction searchLoop f i j with
  | case1 i j hlt hmid ih =>
    obtain ⟨hlow, hhigh, hbelow, habove⟩ := ih (by omega)
    refine ⟨hlow, by omega, hbelow, fun k hk hkj => ?_⟩
    by_cases hkm : k < (i + j) / 2
    · exact habove k hk hkm
    · exact hmono _ k (by omega) hmid
  | case2 i j hlt hmid ih =>
    obtain ⟨hlow, hhigh, hbelow, habove⟩ := ih (by omega)
    refine ⟨by omega, hhigh, fun k hik hk => ?_, habove⟩
    by_cases hkm : (i + j) / 2 < k
    · exact hbelow k (by omega) hk
    · by_contra htrue
      exact hmid (hmono k _ (by omega) (Bool.eq_true_of_not_eq_false htrue))
  | case3 i j hge =>
    exact ⟨le_refl i, hij, fun k _ _ => by omega, fun k _ _ => by omega⟩

/-- A list whose elements satisfy a predicate from a position on. -/
theorem drop_eq_filter {α : Type} {p : α → Bool} {items : List α} {n : Nat}
    (hbelow : ∀ k x, k < n → items[k]? = some x → p x = false)
    (habove : ∀ k x, n ≤ k → items[k]? = some x → p x = true) : items.drop n = items.filter p := by
  have hfirst : (items.take n).filter p = [] := by
    refine filter_eq_nil_iff.mpr fun x hx => ?_
    obtain ⟨k, hk⟩ := mem_iff_getElem?.mp hx
    rw [List.getElem?_take] at hk
    split at hk
    · rw [hbelow k x ‹_› hk]
      exact Bool.false_ne_true
    · cases hk
  have hrest : (items.drop n).filter p = items.drop n := by
    refine filter_eq_self.mpr fun x hx => ?_
    obtain ⟨k, hk⟩ := mem_iff_getElem?.mp hx
    rw [List.getElem?_drop] at hk
    exact habove (n + k) x (Nat.le_add_right n k) hk
  calc items.drop n = (items.take n).filter p ++ (items.drop n).filter p := by
        rw [hfirst, hrest, nil_append]
    _ = items.filter p := by rw [← filter_append, take_append_drop]

/-- The ID that a raw one stands for when the last one is `latest`. -/
inductive DenotesID (latest : StreamID) : Bytes → StreamID → Prop where
  | dollar : DenotesID latest (ascii "$") latest
  | number {raw : Bytes} {milliseconds : Int} (hdash : 45 ∉ raw)
    (hread : parseNonNegativeStreamInt raw = .ok milliseconds) :
    DenotesID latest raw ⟨milliseconds, 0⟩
  | pair {raw : Bytes} {id : StreamID} (hread : parseStreamAddID raw = .ok id) :
    DenotesID latest raw id

theorem cutDash_eq_none_iff {raw : Bytes} : cutDash raw = none ↔ 45 ∉ raw := by
  induction raw with
  | nil => simp [cutDash]
  | cons b raw ih =>
    unfold cutDash
    by_cases hb : b = 45
    · simp [hb]
    · rw [if_neg hb, Option.map_eq_none_iff, ih, mem_cons, not_or]
      exact ⟨fun h => ⟨Ne.symm hb, h⟩, And.right⟩

/-- **The validator accepts what the parser reads**, and what is read is what is meant. -/
theorem parseStreamReadID_spec (rawID : Bytes) (latest : StreamID) :
    (validateXReadID rawID = .ok () ∧
        ∃ id, parseStreamReadID rawID latest = .ok id ∧ DenotesID latest rawID id) ∨
      ∃ err err', validateXReadID rawID = .error err ∧ parseStreamReadID rawID latest = .error err' := by
  unfold validateXReadID parseStreamReadID
  by_cases hdollar : rawID = ascii "$"
  · subst hdollar
    exact .inl ⟨rfl, latest, rfl, .dollar⟩
  · rw [if_neg hdollar, if_neg hdollar]
    cases hcut : cutDash rawID with
    | none =>
      cases hread : parseNonNegativeStreamInt rawID with
      | error err => exact .inr ⟨err, err, rfl, rfl⟩
      | ok milliseconds =>
        exact .inl ⟨rfl, _, rfl, .number (cutDash_eq_none_iff.mp hcut) hread⟩
    | some parts =>
      cases hread : parseStreamAddID rawID with
      | error err => exact .inr ⟨err, err, rfl, rfl⟩
      | ok id => exact .inl ⟨rfl, id, rfl, .pair hread⟩

/-- The entries from the position that the search finds are those above the ID. -/
theorem drop_searchLoop {entries : List StreamRecord}
    (hascending : entries.Pairwise fun left right => left.id.Before right.id) (after : StreamID)
    {above : Nat → Bool}
    (habove : above = fun i => match entries[i]? with
      | some record => decide (0 < record.id.compare after)
      | none => true) :
    entries.drop (searchLoop above 0 entries.length) =
      entries.filter fun record => decide (0 < record.id.compare after) := by
  have hat : ∀ {k record}, entries[k]? = some record →
      above k = decide (0 < record.id.compare after) := by
    intro k record hk
    rw [habove]
    simp only [hk]
  have hmono : ∀ a b, a ≤ b → above a = true → above b = true := by
    intro a b hab ha
    cases hb : entries[b]? with
    | none =>
      rw [habove]
      simp only [hb]
    | some right =>
      obtain ⟨hblt, rfl⟩ := List.getElem?_eq_some_iff.mp hb
      have halt : a < entries.length := by omega
      have hleft := List.getElem?_eq_getElem halt
      rw [hat hleft, decide_eq_true_iff] at ha
      rw [hat hb, decide_eq_true_iff]
      rcases Nat.eq_or_lt_of_le hab with rfl | hlt
      · exact ha
      · exact StreamID.Before.trans ha (pairwise_iff_getElem.mp hascending a b halt hblt hlt)
  obtain ⟨-, -, hbelow, hfrom⟩ := searchLoop_spec hmono (Nat.zero_le entries.length)
  refine drop_eq_filter (fun k record hk hrecord => ?_) fun k record hk hrecord => ?_
  · rw [← hat hrecord]
    exact hbelow k (Nat.zero_le k) hk
  · rw [← hat hrecord]
    exact hfrom k hk (List.getElem?_eq_some_iff.mp hrecord).1

/-- **A read returns exactly the newer entries**: it succeeds if and only if its ID is accepted, and
finds the entries above the ID that is meant. -/
theorem entriesAfter_newer (stream : StreamValue) (hne : stream.entries ≠ [])
    (hascending : stream.entries.Pairwise fun left right => left.id.Before right.id)
    (rawID : Bytes) :
    lastStreamID stream.entries = some stream.lastID ∧
      ((∃ found, stream.entriesAfter rawID = .ok found) ↔ validateXReadID rawID = .ok ()) ∧
      ∀ found, stream.entriesAfter rawID = .ok found →
        ∃ after, DenotesID stream.lastID rawID after ∧
          found = (stream.entries.filter fun record => decide (0 < record.id.compare after)).map
            fun record => ⟨record.idText, record.values⟩ := by
  have hlatest : lastStreamID stream.entries = some stream.lastID := by
    rw [stream.latest, StreamValue.hasEntries_of_ne_nil hne, if_pos rfl]
  refine ⟨hlatest, ?_⟩
  unfold StreamValue.entriesAfter
  rw [if_neg hne]
  rcases parseStreamReadID_spec rawID stream.lastID with
    ⟨hvalid, after, hparse, hdenotes⟩ | ⟨err, err', hvalid, hparse⟩
  · rw [hparse, hvalid]
    refine ⟨iff_of_true ⟨_, rfl⟩ rfl, fun found hfound => ⟨after, hdenotes, ?_⟩⟩
    rw [← Except.ok.inj hfound, ← drop_searchLoop hascending after rfl]
    rfl
  · rw [hparse, hvalid]
    refine ⟨iff_of_false ?_ (by simp), fun found hfound => by cases hfound⟩
    rintro ⟨found, hfound⟩
    cases hfound

/-- A stream with the entries 1-0 and 2-0. -/
def twoEntries : StreamValue where
  entries := [⟨⟨1, 0⟩, []⟩, ⟨⟨2, 0⟩, []⟩]
  lastID := ⟨2, 0⟩
  hasEntries := true
  latest := rfl
  bounded := by decide
  ascending := fun _ => by decide

theorem entriesAfter_newer_one :
    twoEntries.entries ≠ [] ∧
      ((∃ found, twoEntries.entriesAfter (ascii "1") = .ok found) ↔
        validateXReadID (ascii "1") = .ok ()) :=
  ⟨by decide, (entriesAfter_newer twoEntries (by decide) (twoEntries.ascending (by decide))
    (ascii "1")).2.1⟩

end Stash
