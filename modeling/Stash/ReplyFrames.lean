import Stash.AofWriter
import Stash.ConnMachine
import Stash.RequestRuns

/-!
# Replies are single frames

The encoder writes the text of a simple string or an error as it stands, between a marker and
CR LF, so a line feed inside the text would end the frame early and leave the client out of step.
No reply has one.  The texts are constants, numbers, names of the command table, hexadecimal
digits, and whatever the client sent *in quoted form*; of quoting it is assumed that it emits no
control character.

The refusals go through one predicate on `Except` (`RefusesInLines`) with a rule for each way two
steps are put together; the responses through `Value.Framed`, which also bounds how deep the arrays
nest, since the decoder follows them only so far.
-/

namespace Stash

open DecimalText Handlers List

/-! ## The request pipeline

Under `appendfsync always` a request is appended and synced before it is answered.  When that fails
the client is told so and the replicas are told nothing. -/

/-- `persistenceFailureResponse`. -/
def persistenceFailureResponse : Value := .errorValue (ascii "ERR persistence failure")

/-- The append-only file as one request meets it. -/
structure Durability where
  /-- the policy of the writer, if there is one -/
  policy : Option Policy
  /-- whether the append, and under `always` the sync, succeeds -/
  appends : Bool
  deriving DecidableEq, Repr

namespace Durability

/-- `prepareDurabilityBeforeResponse`, whether it succeeds. -/
def prepareDurabilityBeforeResponse (d : Durability) (frames : List Value) : Bool :=
  if d.policy ≠ some .always ∨ frames.isEmpty then true else d.appends

/-- The frames that come to be in the file. -/
def appended (d : Durability) (frames : List Value) : List Value :=
  if d.policy.isSome ∧ d.appends then frames else []

end Durability

/-- What a request leaves outside the store. -/
structure ClientOutcome where
  responses : List Value
  registerReplica : Bool
  /-- the frames in the append-only file -/
  appended : List Value
  /-- the frames handed to `propagateToReplicas` -/
  propagated : List Value

namespace Executor

variable (x : Executor)

/-- `executeClientRequest`; there is no outcome when the connection is done. -/
def executeClientRequest (d : Durability) (ctx : Context) (envs : Nat → Env) (value : Value)
    (w : World) : World × Option ClientOutcome :=
  match x.executeDetailed ctx envs value w with
  | (w', .error .canceled) => (w', none)
  | (w', .error (.refused err)) => (w', some ⟨[err.response], false, [], []⟩)
  | (w', .ok result) =>
    if d.prepareDurabilityBeforeResponse result.durability then
      (w', some ⟨result.responses, result.registerReplica, d.appended result.durability,
        result.propagation⟩)
    else (w', some ⟨[persistenceFailureResponse], false, [], []⟩)

end Executor

/-! ## Texts -/

theorem ascii_append (s t : String) : ascii (s ++ t) = ascii s ++ ascii t := by
  simp [ascii]

/-- A constant text, character by character. -/
def noNewline (chars : List Char) : Bool :=
  chars.all fun c => c.toNat.toUInt8 != 10

theorem newline_notMem_ascii {chars : List Char} (h : noNewline chars = true) :
    10 ∉ ascii (String.ofList chars) := by
  unfold ascii
  rw [String.toList_ofList]
  intro hmem
  obtain ⟨c, hc, heq⟩ := mem_map.mp hmem
  have hne := all_eq_true.mp h c hc
  rw [heq] at hne
  exact absurd hne (by decide)

theorem notMem_append {b : UInt8} {s t : Bytes} (hs : b ∉ s) (ht : b ∉ t) : b ∉ s ++ t := by
  rw [mem_append, not_or]
  exact ⟨hs, ht⟩

namespace CommandError

/-- The line an error is sent as. -/
def line : CommandError → Bytes
  | .resp code message => ascii (code ++ " " ++ message)
  | .other message => ascii ("ERR " ++ message)
  | .unknown quoted => ascii "ERR unknown command " ++ quoted

/-- The error is sent as a single line. -/
def OneLine (err : CommandError) : Prop :=
  10 ∉ err.line

theorem response_eq (err : CommandError) : err.response = .errorValue err.line := by
  cases err <;> rfl

theorem oneLine_resp_append {code message text : String} (hhead : (resp code message).OneLine)
    (htext : 10 ∉ ascii text) : (resp code (message ++ text)).OneLine := by
  have hline : (resp code (message ++ text)).line = (resp code message).line ++ ascii text := by
    simp only [line, ← String.append_assoc, ascii_append]
  unfold OneLine
  rw [hline]
  exact notMem_append hhead htext

theorem oneLine_resp {code message : List Char} (hcode : noNewline code = true)
    (hmessage : noNewline message = true) :
    (resp (String.ofList code) (String.ofList message)).OneLine := by
  have hblank : 10 ∉ ascii " " := by decide
  unfold OneLine line
  simp only [ascii_append]
  exact notMem_append (notMem_append (newline_notMem_ascii hcode) hblank)
    (newline_notMem_ascii hmessage)

theorem oneLine_other {message : List Char} (hmessage : noNewline message = true) :
    (other (String.ofList message)).OneLine := by
  have hcode : 10 ∉ ascii "ERR " := by decide
  unfold OneLine line
  simp only [ascii_append]
  exact notMem_append hcode (newline_notMem_ascii hmessage)

theorem oneLine_arity {command : List Char} (h : noNewline command = true) :
    (wrongNumberOfArguments (String.ofList command)).OneLine := by
  have hhead : (resp "ERR" "wrong number of arguments for '").OneLine :=
    oneLine_resp rfl rfl
  exact oneLine_resp_append (oneLine_resp_append hhead (newline_notMem_ascii h))
    (newline_notMem_ascii rfl)

theorem oneLine_storage (err : StorageError) : (storageCommandError err).OneLine := by
  cases err with
  | invalidExpireTime => exact oneLine_other rfl
  | _ => exact oneLine_resp rfl rfl

theorem oneLine_setExpiry (err : StorageError) : (setExpiryError err).OneLine := by
  cases err with
  | syntaxError | invalidExpireTime => exact oneLine_resp rfl rfl
  | _ => exact oneLine_other rfl

theorem oneLine_label (c : CommandName) : (wrongNumberOfArguments c.label).OneLine := by
  cases c <;> exact oneLine_arity rfl

theorem oneLine_syntaxError : syntaxError.OneLine := oneLine_resp rfl rfl

theorem oneLine_valueNotInteger : valueNotInteger.OneLine := oneLine_resp rfl rfl

theorem oneLine_valueNotFloat : valueNotFloat.OneLine := oneLine_resp rfl rfl

end CommandError

/-! ## Refusals -/

/-- Whatever a step refuses with is a single line. -/
def RefusesInLines {α : Type} (result : Except CommandError α) : Prop :=
  ∀ err, result = .error err → err.OneLine

namespace RefusesInLines

variable {α β : Type}

theorem ok (a : α) : RefusesInLines (.ok a) :=
  fun _ h => by cases h

theorem error {err : CommandError} (h : err.OneLine) :
    RefusesInLines (.error err : Except CommandError α) := by
  intro err' heq
  rwa [← Except.error.inj heq]

theorem arity {command : List Char} (h : noNewline command = true) : RefusesInLines
    (.error (CommandError.wrongNumberOfArguments (String.ofList command)) : Except CommandError α) :=
  error (CommandError.oneLine_arity h)

theorem bind {result : Except CommandError α} {next : α → Except CommandError β}
    (h : RefusesInLines result) (hnext : ∀ a, RefusesInLines (next a)) :
    RefusesInLines (result >>= next) := by
  cases result with
  | error err => exact error (h err rfl)
  | ok a => exact hnext a

theorem map {result : Except CommandError α} (f : α → β) (h : RefusesInLines result) :
    RefusesInLines (result.map f) := by
  cases result with
  | error err => exact error (h err rfl)
  | ok a => exact ok (f a)

theorem ite {p : Prop} [Decidable p] {first second : Except CommandError α}
    (hfirst : RefusesInLines first) (hsecond : RefusesInLines second) :
    RefusesInLines (if p then first else second) := by
  by_cases hp : p
  · rwa [if_pos hp]
  · rwa [if_neg hp]

theorem ofStorage (result : Except StorageError α) :
    RefusesInLines (result.mapError storageCommandError) := by
  cases result with
  | error err => exact error (CommandError.oneLine_storage err)
  | ok a => exact ok a

end RefusesInLines

open RefusesInLines CommandError

/-! ### Arguments -/

variable (raw : Bytes)

theorem parseIntegerArgument_lines : RefusesInLines (parseIntegerArgument raw) := by
  unfold parseIntegerArgument
  split
  · exact .ok _
  · exact .error oneLine_valueNotInteger

theorem parseRangeBounds_lines (start stop : Bytes) :
    RefusesInLines (parseRangeBounds start stop) :=
  .bind (parseIntegerArgument_lines start) fun _ =>
    .bind (parseIntegerArgument_lines stop) fun _ => .ok _

theorem parseBitmapOffsetArgument_lines : RefusesInLines (parseBitmapOffsetArgument raw) :=
  .bind (parseIntegerArgument_lines raw) fun _ => .ite (.error oneLine_valueNotInteger) (.ok _)

theorem parseBitValueArgument_lines : RefusesInLines (parseBitValueArgument raw) :=
  .bind (parseIntegerArgument_lines raw) fun _ => .ite (.error oneLine_valueNotInteger) (.ok _)

theorem parseCountArgument_lines : RefusesInLines (parseCountArgument raw) :=
  .bind (parseIntegerArgument_lines raw) fun _ => .ite (.error (oneLine_resp rfl rfl)) (.ok _)

theorem parseFloatArgument_lines (rt : Runtime) (raw : Bytes) :
    RefusesInLines (parseFloatArgument rt raw) := by
  unfold parseFloatArgument
  split
  · exact .error oneLine_valueNotFloat
  · split
    · exact .ok _
    · exact .error oneLine_valueNotFloat

theorem parseScoreMembers_lines (rt : Runtime) (args : List Bytes) :
    RefusesInLines (parseScoreMembers rt args) := by
  fun_induction parseScoreMembers rt args with
  | case1 score member rest ih =>
    exact .bind (parseFloatArgument_lines rt score) fun _ => .bind ih fun _ => .ok _
  | case2 => exact .ok _

/-- What is assumed of the printing functions of the runtime: the quoted form of a text holds no
control character, and neither do two printed coordinates. -/
structure Runtime.PrintsLines (rt : Runtime) : Prop where
  quote : ∀ text, ∀ b ∈ rt.quote text, 32 ≤ b
  coordinates : ∀ longitude latitude, ∀ b ∈ ascii (rt.formatCoordinates longitude latitude), 32 ≤ b

theorem newline_notMem {text : Bytes} (h : ∀ b ∈ text, 32 ≤ b) : 10 ∉ text :=
  fun hmem => absurd (h 10 hmem) (by decide)

variable {rt : Runtime}

theorem parseGeoCoordinates_lines (hrt : rt.PrintsLines) (longitude latitude : Bytes) :
    RefusesInLines (parseGeoCoordinates rt longitude latitude) := by
  refine .bind (parseFloatArgument_lines rt longitude) fun x => ?_
  refine .bind (parseFloatArgument_lines rt latitude) fun y => .ite (.error ?_) (.ok _)
  exact oneLine_resp_append (oneLine_resp rfl rfl) (newline_notMem (hrt.coordinates x y))

theorem parseGeoMembers_lines (hrt : rt.PrintsLines) (args : List Bytes) :
    RefusesInLines (parseGeoMembers rt args) := by
  fun_induction parseGeoMembers rt args with
  | case1 longitude latitude member rest ih =>
    exact .bind (parseGeoCoordinates_lines hrt longitude latitude) fun _ => .bind ih fun _ => .ok _
  | case2 => exact .ok _

theorem parseGeoRadiusArgument_lines (raw : Bytes) :
    RefusesInLines (parseGeoRadiusArgument rt raw) :=
  .bind (parseFloatArgument_lines rt raw) fun _ => .ite (.error (oneLine_resp rfl rfl)) (.ok _)

theorem parseGeoUnitArgument_lines (raw : Bytes) : RefusesInLines (parseGeoUnitArgument rt raw) :=
  .ite (.ok _) (.error (oneLine_resp rfl rfl))

/-! ### Validators -/

variable (c : CommandName)

theorem exactArgs_lines (count : Nat) (args : List Bytes) :
    RefusesInLines (exactArgs c count args) :=
  .ite (.error (oneLine_label c)) (.ok _)

theorem maxArgs_lines (max : Nat) (args : List Bytes) : RefusesInLines (maxArgs c max args) :=
  .ite (.error (oneLine_label c)) (.ok _)

theorem minArgs_lines (min : Nat) (args : List Bytes) : RefusesInLines (minArgs c min args) :=
  .ite (.error (oneLine_label c)) (.ok _)

theorem validateChannels_lines (channels : List Bytes) :
    RefusesInLines (validateChannels channels) :=
  .ite (.error oneLine_syntaxError) (.ok _)

theorem validateWaitRequest_lines (args : List Bytes) :
    RefusesInLines (validateWaitRequest args) := by
  unfold validateWaitRequest
  split
  · refine .bind (parseIntegerArgument_lines _) fun replicas => ?_
    have htimeout : ∀ timeout : Bytes, RefusesInLines (do
        let timeout ← parseIntegerArgument timeout
        if timeout < 0 then .error .valueNotInteger) := fun timeout =>
      .bind (parseIntegerArgument_lines timeout) fun _ =>
        .ite (.error oneLine_valueNotInteger) (.ok ())
    exact .ite (.bind (.error oneLine_valueNotInteger) fun _ => htimeout _) (htimeout _)
  · exact .arity rfl

theorem validateSlowlogRequest_lines (args : List Bytes) :
    RefusesInLines (validateSlowlogRequest rt args) := by
  unfold validateSlowlogRequest
  split
  · exact .arity rfl
  · refine .ite ?_ (.ite (.ite (.ok _) (.arity rfl)) (.error oneLine_syntaxError))
    split
    · exact .ok _
    · exact .ite (.ok _) (.error oneLine_valueNotInteger)
    · exact .arity rfl

/-- Every validator refuses with a single line. -/
theorem validate_lines (hrt : rt.PrintsLines) (c : CommandName) (args : List Bytes)
    (now : Instant) : RefusesInLines (c.validate rt args now) := by
  cases c with
  | subscribe => exact .bind (minArgs_lines _ _ _) fun _ => validateChannels_lines _
  | unsubscribe => exact validateChannels_lines _
  | set =>
    simp only [CommandName.validate, validateSetRequest]
    split
    · split
      · exact .error (oneLine_setExpiry _)
      · exact .ok _
    · exact .arity rfl
  | setBit =>
    simp only [CommandName.validate, validateSetBitRequest]
    split
    · exact .bind (parseBitmapOffsetArgument_lines _) fun _ =>
        .bind (parseBitValueArgument_lines _) fun _ => .ok _
    · exact .arity rfl
  | getBit =>
    simp only [CommandName.validate, validateGetBitRequest]
    split
    · exact .bind (parseBitmapOffsetArgument_lines _) fun _ => .ok _
    · exact .arity rfl
  | bitCount =>
    simp only [CommandName.validate, validateBitCountRequest]
    split
    · exact .ok _
    · exact .bind (parseRangeBounds_lines _ _) fun _ => .ok _
    · exact .arity rfl
  | lRange =>
    simp only [CommandName.validate, validateLRangeRequest]
    split
    · exact .bind (parseRangeBounds_lines _ _) fun _ => .ok _
    · exact .arity rfl
  | lPop | rPop =>
    simp only [CommandName.validate, validatePopRequest]
    split
    · exact .ok _
    · exact .bind (parseCountArgument_lines _) fun _ => .ok _
    · exact .error (oneLine_label _)
  | zAdd =>
    exact .ite (.arity rfl) (.bind (parseScoreMembers_lines _ _) fun _ => .ok _)
  | zRange =>
    simp only [CommandName.validate, validateZRangeRequest]
    split
    · exact .bind (parseRangeBounds_lines _ _) fun _ => .ok _
    · exact .ite (.bind (parseRangeBounds_lines _ _) fun _ => .ok _) (.error oneLine_syntaxError)
    · exact .arity rfl
  | geoAdd =>
    exact .ite (.arity rfl) (.bind (parseGeoMembers_lines hrt _) fun _ => .ok _)
  | geoDist =>
    simp only [CommandName.validate, validateGeoDistRequest]
    split
    · exact .ok _
    · exact .bind (parseGeoUnitArgument_lines _) fun _ => .ok _
    · exact .arity rfl
  | geoRadius =>
    simp only [CommandName.validate, validateGeoRadiusRequest]
    split
    · refine .bind (parseGeoCoordinates_lines hrt _ _) fun _ => ?_
      refine .bind (parseGeoRadiusArgument_lines _) fun _ => ?_
      exact .bind (parseGeoUnitArgument_lines _) fun _ => .ok _
    · exact .ite (.arity rfl) (.error oneLine_syntaxError)
  | xAdd =>
    simp only [CommandName.validate, validateXAddRequest]
    split
    · exact .ite (.arity rfl) (.ofStorage _)
    · exact .arity rfl
  | xRead =>
    simp only [CommandName.validate, validateXReadRequest]
    split
    · exact .arity rfl
    · exact .ite (.ofStorage _) (.error oneLine_syntaxError)
    · exact .error oneLine_syntaxError
  | hSet => exact .ite (.arity rfl) (.ok _)
  | publish =>
    simp only [CommandName.validate, validatePublishRequest]
    split
    · exact validateChannels_lines _
    · exact .arity rfl
  | replConf =>
    simp only [CommandName.validate, validateReplConfRequest]
    split
    · exact .ite (.ok _) (.error oneLine_syntaxError)
    · exact .arity rfl
  | pSync =>
    simp only [CommandName.validate, validatePSyncRequest]
    split
    · exact .ite (.ok _) (.error oneLine_syntaxError)
    · exact .arity rfl
  | wait => exact validateWaitRequest_lines _
  | slowlog => exact validateSlowlogRequest_lines _
  | watch | pfAdd | pfCount | del | lPush | rPush | hDel | sAdd | sRem =>
    exact minArgs_lines _ _ _
  | ping | info => exact maxArgs_lines _ _ _
  | multi | exec | discard | bgRewriteAOF | monitor | auth | echo | get | incr | blPop | hGetAll
  | sMembers | hGet | sIsMember => exact exactArgs_lines _ _ _

/-! ## Responses -/

/-- A value the decoder reads back: without line feeds in its lines, and nested no deeper than
this. -/
structure Value.Framed (levels : Nat) (value : Value) : Prop where
  newlineFree : value.NewlineFree
  shallow : value.nesting ≤ levels

namespace Value.Framed

variable {n : Nat}

theorem mono {m : Nat} {value : Value} (h : value.Framed n) (hnm : n ≤ m) : value.Framed m :=
  ⟨h.newlineFree, h.shallow.trans hnm⟩

theorem simpleString {text : Bytes} (h : 10 ∉ text) : (Value.simpleString text).Framed n :=
  ⟨h, Nat.zero_le n⟩

theorem errorValue {text : Bytes} (h : 10 ∉ text) : (Value.errorValue text).Framed n :=
  ⟨h, Nat.zero_le n⟩

theorem response {n : Nat} {err : CommandError} (h : err.OneLine) : err.response.Framed n := by
  rw [err.response_eq]
  exact errorValue h

theorem bulk (data : Bytes) : (Value.bulk data).Framed n :=
  ⟨trivial, Nat.zero_le n⟩

theorem text (data : Bytes) : (Value.text data).Framed n :=
  ⟨trivial, Nat.zero_le n⟩

theorem nullBulk : Handlers.nullBulk.Framed n :=
  ⟨trivial, Nat.zero_le n⟩

theorem integer (z : Int) : (integerResponse z).Framed n :=
  ⟨trivial, Nat.zero_le n⟩

theorem ok {n : Nat} : okResponse.Framed n :=
  simpleString (by decide)

theorem nullArray : (Value.array [] true).Framed (n + 1) :=
  ⟨.inl rfl, Nat.le_add_left 1 n⟩

theorem array {elements : List Value} (h : ∀ value ∈ elements, value.Framed n) :
    (Value.array elements false).Framed (n + 1) := by
  have hall : Value.AllNewlineFree elements ∧ Value.nestingAll elements ≤ n := by
    induction elements with
    | nil => exact ⟨trivial, Nat.zero_le n⟩
    | cons first rest ih =>
      obtain ⟨hfree, hnesting⟩ := ih fun value hvalue => h value (mem_cons_of_mem _ hvalue)
      have hfirst := h first mem_cons_self
      exact ⟨⟨hfirst.newlineFree, hfree⟩, max_le hfirst.shallow hnesting⟩
  refine ⟨.inr hall.1, ?_⟩
  show (if false then 1 else 1 + Value.nestingAll elements) ≤ n + 1
  rw [if_neg (by decide)]
  omega

theorem list (values : List Bytes) : (listResponse values).Framed (n + 1) := by
  refine array fun value hvalue => ?_
  obtain ⟨data, -, rfl⟩ := mem_map.mp hvalue
  exact bulk data

theorem bulkOrNull (value : Option Bytes) :
    ((value.map Value.bulk).getD Handlers.nullBulk).Framed n := by
  cases value with
  | none => exact nullBulk
  | some data => exact bulk data

theorem zset {n : Nat} (rt : Runtime) (entries : List ZSetEntry) (withScores : Bool) :
    (zsetResponse rt entries withScores).Framed (n + 1) := by
  refine array fun value hvalue => ?_
  obtain ⟨entry, -, hentry⟩ := mem_flatMap.mp hvalue
  cases withScores with
  | false =>
    rcases mem_singleton.mp hentry with rfl
    exact text _
  | true =>
    rcases mem_pair.mp hentry with rfl | rfl
    · exact text _
    · exact text _

theorem one {n : Nat} {value : Value} (h : value.Framed n) : ∀ v ∈ [value], v.Framed n := by
  intro v hv
  rcases mem_singleton.mp hv with rfl
  exact h

theorem pair {first second : Value} (hfirst : first.Framed n)
    (hsecond : second.Framed n) : (Value.array [first, second] false).Framed (n + 1) := by
  refine array fun value hvalue => ?_
  rcases mem_pair.mp hvalue with rfl | rfl
  · exact hfirst
  · exact hsecond

theorem stream {n : Nat} (key : Bytes) (entries : List StreamEntry) :
    (streamReadResponse key entries).Framed (n + 5) := by
  unfold streamReadResponse
  split
  · exact array fun value hvalue => absurd hvalue not_mem_nil
  · refine array (one ?_)
    refine pair (bulk key) (array fun entry hentry => ?_)
    obtain ⟨e, -, rfl⟩ := mem_map.mp hentry
    exact pair (text e.id) (list e.values)

end Value.Framed

/-! ## Commands of the store -/

/-- The deepest reply of a command that is not `EXEC`: that of XREAD. -/
def replyDepth : Nat := 5

/-- A handler answers with a frame, or refuses with a single line. -/
structure AnswersFrame (handled : Handled) : Prop where
  response : ∀ reply, handled.2 = .ok reply → reply.response.Framed replyDepth
  refusal : ∀ err, handled.2 = .error (.refused err) → err.OneLine

namespace AnswersFrame

variable {α : Type}

theorem refused {s : Store} {err : CommandError} (h : err.OneLine) :
    AnswersFrame (Handlers.refused s err) where
  response := fun _ heq => by cases heq
  refusal := fun err' heq => by
    obtain rfl : err = err' := Failure.refused.inj (Except.error.inj heq)
    exact h

variable {s : Store}

theorem replied {reply : Reply} (h : reply.response.Framed replyDepth) :
    AnswersFrame (s, .ok reply) where
  response := fun reply' heq => by
    obtain rfl : reply = reply' := Except.ok.inj heq
    exact h
  refusal := fun _ heq => by cases heq

theorem canceled : AnswersFrame (s, .error .canceled) where
  response := fun _ heq => by cases heq
  refusal := fun _ heq => by cases heq

theorem answer {result : Store × Except StorageError α} {reply : α → Reply}
    (h : ∀ a, (reply a).response.Framed replyDepth) :
    AnswersFrame (Handlers.answer result reply) := by
  rcases result with ⟨s, err | a⟩
  · exact refused (oneLine_storage err)
  · exact replied (h a)

theorem parsed {arguments : Except CommandError α} {run : α → Handled}
    (harguments : RefusesInLines arguments) (hrun : ∀ a, AnswersFrame (run a)) :
    AnswersFrame (Handlers.parsed s arguments run) := by
  cases arguments with
  | error err => exact refused (harguments err rfl)
  | ok a => exact hrun a

/-- The panic no validated request reaches. -/
theorem outOfRange : AnswersFrame (Handlers.refused s Handlers.outOfRange) :=
  refused (oneLine_other rfl)

end AnswersFrame

open AnswersFrame

variable (c : CommandName) (left : Bool) (s : Store) (args : List Bytes) (env : Env)

theorem handlePush_frame : AnswersFrame (handlePush c left s args env) := by
  unfold handlePush
  split
  · exact .answer fun _ => .integer _
  · exact .refused (oneLine_label c)

theorem popList_frame : AnswersFrame (popList c left s args env) := by
  unfold popList
  split
  · exact .answer fun value => .bulkOrNull value
  · refine .parsed (parseCountArgument_lines _) fun count => .answer fun values => ?_
    cases values with
    | none => exact .nullArray
    | some values => exact .list values
  · exact .refused (oneLine_label c)

/-- Every command that uses the store answers with a frame. -/
theorem storeHandler_frame {rt : Runtime} (hrt : rt.PrintsLines) {inline : Bool} {c : CommandName}
    {handler : Store → List Bytes → Env → Handled} (h : storeHandler rt inline c = some handler)
    (s : Store) (args : List Bytes) (env : Env) : AnswersFrame (handler s args env) := by
  cases c
  all_goals cases h
  case set =>
    unfold handleSet
    split
    · split
      · exact .refused (oneLine_setExpiry _)
      · exact .answer fun _ => .ok
    · exact .outOfRange
  case setBit =>
    unfold handleSetBit
    split
    · exact .parsed (parseBitmapOffsetArgument_lines _) fun _ =>
        .parsed (parseBitValueArgument_lines _) fun _ => .answer fun _ => .integer _
    · exact .outOfRange
  case getBit =>
    unfold handleGetBit
    split
    · exact .parsed (parseBitmapOffsetArgument_lines _) fun _ => .answer fun _ => .integer _
    · exact .outOfRange
  case bitCount =>
    unfold handleBitCount
    split
    · exact .parsed (parseRangeBounds_lines _ _) fun _ => .answer fun _ => .integer _
    · exact .answer fun _ => .integer _
    · exact .outOfRange
  case pfCount =>
    unfold handlePFCount
    split
    · exact .refused (oneLine_arity rfl)
    · exact .answer fun _ => .integer _
  case del =>
    unfold handleDel
    split
    · exact .refused (oneLine_arity rfl)
    · exact .replied (.integer _)
    · exact .replied (.integer _)
  case lRange =>
    unfold handleLRange
    split
    · exact .parsed (parseRangeBounds_lines _ _) fun _ => .answer fun _ => .list _
    · exact .outOfRange
  case blPop =>
    unfold handleBLPop
    split
    · split
      · exact .refused (oneLine_storage _)
      · exact .replied (.pair (.bulk _) (.bulk _))
      · cases inline with
        | false => exact .canceled
        | true =>
          have hname : (CommandError.blockingNotSupported "BLPOP").OneLine :=
            oneLine_resp_append (oneLine_resp rfl rfl) (newline_notMem_ascii rfl)
          exact .refused hname
    · exact .refused (oneLine_arity rfl)
  case zAdd =>
    unfold handleZAdd
    split
    · exact .parsed (parseScoreMembers_lines _ _) fun _ => .answer fun _ => .integer _
    · exact .outOfRange
  case zRange =>
    unfold handleZRange
    split
    · split
      · exact .parsed (parseRangeBounds_lines _ _) fun _ => .answer fun _ => .zset _ _ _
      · exact .refused oneLine_syntaxError
    · exact .outOfRange
  case geoAdd =>
    unfold handleGeoAdd
    split
    · exact .parsed (parseGeoMembers_lines hrt _) fun _ => .answer fun _ => .integer _
    · exact .outOfRange
  case geoDist =>
    unfold handleGeoDist
    split
    · refine .parsed (parseGeoUnitArgument_lines _) fun _ => .answer fun scores => ?_
      unfold Reply.plain
      split
      · exact .text _
      · exact .nullBulk
    · exact .outOfRange
  case geoRadius =>
    unfold handleGeoRadius
    split
    · exact .parsed (parseGeoCoordinates_lines hrt _ _) fun _ =>
        .parsed (parseGeoRadiusArgument_lines _) fun _ =>
          .parsed (parseGeoUnitArgument_lines _) fun _ => .answer fun _ => .zset _ _ _
    · exact .outOfRange
  case xAdd =>
    unfold handleXAdd
    split
    · exact .answer fun _ => .text _
    · exact .outOfRange
  case xRead =>
    unfold handleXRead
    split
    · split
      · exact .answer fun _ => .stream _ _
      · exact .refused oneLine_syntaxError
    · exact .refused (oneLine_arity rfl)
    · exact .refused oneLine_syntaxError
  case hSet =>
    unfold handleHSet
    split
    · exact .answer fun _ => .integer _
    · exact .outOfRange
  case incr | pfAdd | hDel | sAdd | sIsMember | sRem =>
    simp only [handleIncr, handlePFAdd, handleHDel, handleSAdd, handleSIsMember, handleSRem]
    split
    · exact .answer fun _ => .integer _
    · exact .refused (oneLine_arity rfl)
  case get | hGet =>
    simp only [handleGet, handleHGet]
    split
    · exact .answer fun _ => .bulkOrNull _
    · exact .refused (oneLine_arity rfl)
  case hGetAll | sMembers =>
    simp only [handleHGetAll, handleSMembers]
    split
    · exact .answer fun _ => .list _
    · exact .refused (oneLine_arity rfl)
  case lPush | rPush => exact handlePush_frame _ _ s args env
  case lPop | rPop => exact popList_frame _ _ s args env

/-! ## Requests -/

/-- A request is answered with frames nested no deeper than this, or refused with a single line. -/
structure AnsweredIn (levels : Nat) (result : Except Failure ExecuteResult) : Prop where
  responses : ∀ answer, result = .ok answer → ∀ value ∈ answer.responses, value.Framed levels
  refusal : ∀ err, result = .error (.refused err) → err.OneLine

namespace AnsweredIn

variable {n : Nat}

theorem ofResponses {answer : ExecuteResult} (h : ∀ value ∈ answer.responses, value.Framed n) :
    AnsweredIn n (.ok answer) where
  responses := fun answer' heq => by
    obtain rfl : answer = answer' := Except.ok.inj heq
    exact h
  refusal := fun _ heq => by cases heq

theorem single {value : Value} (h : value.Framed n) : AnsweredIn n (.ok (.ofResponses [value])) :=
  ofResponses (.one h)

theorem refused {err : CommandError} (h : err.OneLine) : AnsweredIn n (.error (.refused err)) where
  responses := fun _ heq => by cases heq
  refusal := fun err' heq => by
    obtain rfl : err = err' := Failure.refused.inj (Except.error.inj heq)
    exact h

theorem canceled : AnsweredIn n (.error .canceled) where
  responses := fun _ heq => by cases heq
  refusal := fun _ heq => by cases heq

theorem mono {m : Nat} {result : Except Failure ExecuteResult} (h : AnsweredIn n result)
    (hnm : n ≤ m) : AnsweredIn m result where
  responses := fun answer heq value hvalue => (h.responses answer heq value hvalue).mono hnm
  refusal := h.refusal

end AnsweredIn

namespace Executor

/-- What the executor is handed from the rest of the server is sent in lines as well. -/
structure SpeaksInLines (x : Executor) : Prop where
  runtime : x.rt.PrintsLines
  replicationID : 10 ∉ x.masterReplicationID
  wait : ∀ env inline args err, x.waitForReplicas env inline args = .error (.refused err) →
    err.OneLine
  rewrite : ∀ env, RefusesInLines (x.aofRewrite env)
  slowlog : ∀ env args, (x.slowlog env args).Framed replyDepth

variable {x : Executor}

/-- What a command of the connection answers. -/
structure ConnectionAnswer (result : Except CommandError (ClientState × List Value)) : Prop where
  refusal : RefusesInLines result
  responses : ∀ answer, result = .ok answer → ∀ value ∈ answer.2, value.Framed replyDepth

namespace ConnectionAnswer

theorem error {err : CommandError} (h : err.OneLine) : ConnectionAnswer (.error err) :=
  ⟨.error h, fun _ heq => by cases heq⟩

theorem replies {state : ClientState} {responses : List Value}
    (h : ∀ value ∈ responses, value.Framed replyDepth) :
    ConnectionAnswer (.ok (state, responses)) := by
  refine ⟨.ok _, fun answer heq => ?_⟩
  cases heq
  exact h

theorem reply {state : ClientState} {value : Value} (h : value.Framed replyDepth) :
    ConnectionAnswer (.ok (state, [value])) :=
  replies (.one h)

theorem ite {p : Prop} [Decidable p] {first second : Except CommandError (ClientState × List Value)}
    (hfirst : ConnectionAnswer first) (hsecond : ConnectionAnswer second) :
    ConnectionAnswer (if p then first else second) := by
  by_cases hp : p
  · rwa [if_pos hp]
  · rwa [if_neg hp]

end ConnectionAnswer

variable {ctx : Context} {w : World}

theorem onClient_answered {handler : ClientState → Except CommandError (ClientState × List Value)}
    (h : ∀ state, ConnectionAnswer (handler state)) :
    AnsweredIn replyDepth (onClient ctx w handler).2 := by
  unfold onClient
  split
  · exact .refused (oneLine_other rfl)
  · next state _ =>
    split
    · next err heq => exact .refused ((h state).refusal err heq)
    · next state' responses heq => exact .ofResponses ((h state).responses _ heq)

variable (kind : String) (state : ClientState)

theorem pubSubAck_framed {channel : Value} (h : channel.Framed 0) (count : Nat) :
    (pubSubAckResponse kind channel count).Framed replyDepth := by
  refine .array fun part hpart => ?_
  simp only [mem_cons, not_mem_nil, or_false] at hpart
  rcases hpart with rfl | rfl | rfl
  · exact .text _
  · exact h.mono (Nat.zero_le _)
  · exact .integer _

theorem acknowledge_framed (change : ClientState → Bytes → ClientState)
    (state : ClientState) (channels : List Bytes) :
    ∀ value ∈ (acknowledge kind change state channels).2, value.Framed replyDepth := by
  induction channels generalizing state with
  | nil =>
    intro value hvalue
    exact absurd hvalue not_mem_nil
  | cons channel channels ih =>
    intro value hvalue
    rcases mem_cons.mp hvalue with rfl | hrest
    · exact pubSubAck_framed kind (.bulk channel) _
    · exact ih _ value hrest

theorem handleUnsubscribe_answer (args : List Bytes) :
    ConnectionAnswer (handleUnsubscribe state args) :=
  .ite (.error (oneLine_resp rfl rfl))
    (.ite (.reply (pubSubAck_framed _ .nullBulk _)) (.replies (acknowledge_framed _ _ _ _)))

theorem handleMulti_answer : ConnectionAnswer (handleMulti state) :=
  .ite (.error (oneLine_resp rfl rfl))
    (.ite (.error (oneLine_resp rfl rfl)) (.reply .ok))

theorem handleMonitor_answer : ConnectionAnswer (x.handleMonitor state) :=
  .ite (.error (oneLine_other rfl))
    (.ite (.error (oneLine_resp rfl rfl))
      (.ite (.reply .ok) (.error (oneLine_other rfl))))

variable (args : List Bytes)

theorem handlePing_answered : AnsweredIn replyDepth ((handlePing args).mapError .refused) := by
  unfold handlePing
  split
  · exact .single (.simpleString (by decide))
  · exact .single (.bulk _)
  · exact .refused (oneLine_arity rfl)

theorem handleEcho_answered : AnsweredIn replyDepth ((handleEcho args).mapError .refused) := by
  unfold handleEcho
  split
  · exact .single (.bulk _)
  · exact .refused (oneLine_arity rfl)

theorem handleReplConf_answered (ctx : Context) (args : List Bytes) (env : Env) :
    AnsweredIn replyDepth ((x.handleReplConf ctx args env).mapError .refused) := by
  have hnone : ∀ value ∈ ([] : List Value), value.Framed replyDepth :=
    fun _ hvalue => absurd hvalue not_mem_nil
  unfold handleReplConf
  split
  · dsimp only
    split_ifs
    · exact .single .ok
    · exact .ofResponses hnone
    · exact .refused oneLine_syntaxError
    · exact .ofResponses hnone
    · exact .refused oneLine_syntaxError
  · exact .refused (oneLine_other rfl)

theorem handleInfo_answered (env : Env) :
    AnsweredIn replyDepth ((x.handleInfo args env).mapError .refused) := by
  unfold handleInfo
  dsimp only
  split_ifs
  · exact .single (.text _)
  · exact .refused oneLine_syntaxError

theorem handlePSync_answered (hx : x.SpeaksInLines) (ctx : Context) (w : World) (env : Env) :
    AnsweredIn replyDepth (x.handlePSync ctx w env).2 := by
  unfold handlePSync
  split_ifs
  · exact .refused (oneLine_other rfl)
  · refine .ofResponses fun value hvalue => ?_
    rcases mem_pair.mp hvalue with rfl | rfl
    · exact .simpleString (notMem_append (notMem_append (by decide) hx.replicationID) (by decide))
    · exact .bulk _

theorem runOther_answered (hx : x.SpeaksInLines) (ctx : Context) (env : Env) (c : CommandName)
    (args : List Bytes) (w : World) : AnsweredIn replyDepth (x.runOther ctx env c args w).2 := by
  have hpanic : AnsweredIn replyDepth (.error (.refused outOfRange)) :=
    .refused (oneLine_other rfl)
  cases c with
  | subscribe =>
    exact onClient_answered fun state =>
      .ite (.error (oneLine_resp rfl rfl)) (.replies (acknowledge_framed _ _ _ _))
  | unsubscribe => exact onClient_answered fun state => handleUnsubscribe_answer state args
  | watch =>
    exact onClient_answered fun state =>
      .ite (.error (oneLine_resp rfl rfl)) (.reply .ok)
  | multi => exact onClient_answered handleMulti_answer
  | discard =>
    exact onClient_answered fun state =>
      .ite (.reply .ok) (.error (oneLine_resp rfl rfl))
  | monitor => exact onClient_answered handleMonitor_answer
  | auth =>
    dsimp only [runOther]
    split_ifs
    · exact .refused (oneLine_resp_append (oneLine_resp rfl rfl)
        (newline_notMem_ascii rfl))
    · exact onClient_answered fun state =>
        .ite (.reply .ok) (.error (oneLine_resp rfl rfl))
  | ping => exact handlePing_answered args
  | echo => exact handleEcho_answered args
  | publish => exact .single (.integer _)
  | replConf => exact handleReplConf_answered ctx args env
  | pSync => exact handlePSync_answered hx ctx w env
  | wait =>
    dsimp only [runOther]
    cases hwait : x.waitForReplicas env ctx.inline args with
    | ok acked => exact .single (.integer _)
    | error failure =>
      cases failure with
      | canceled => exact .canceled
      | refused err => exact .refused (hx.wait _ _ _ err hwait)
  | bgRewriteAOF =>
    dsimp only [runOther]
    cases hrewrite : x.aofRewrite env with
    | ok started => exact .single (.simpleString (newline_notMem_ascii rfl))
    | error err => exact .refused (hx.rewrite env err hrewrite)
  | info => exact handleInfo_answered args env
  | slowlog => exact .single (hx.slowlog env args)
  | _ => exact hpanic

theorem runCommand_answered (hx : x.SpeaksInLines) (ctx : Context) (env : Env) (c : CommandName)
    (request : Request) (w : World) :
    AnsweredIn replyDepth (x.runCommand ctx env c request w).2 := by
  unfold runCommand
  split
  · next handler hhandler =>
    have hframe := storeHandler_frame hx.runtime hhandler w.store request.args env
    split
    · next s failure heq =>
      rw [heq] at hframe
      cases failure with
      | canceled => exact .canceled
      | refused err => exact .refused (hframe.refusal err rfl)
    · next s reply heq =>
      rw [heq] at hframe
      exact .ofResponses (.one (hframe.response reply rfl))
  · have hother := runOther_answered hx ctx env c request.args w
    dsimp only
    cases hresult : (x.runOther ctx env c request.args w).2 with
    | error failure =>
      rw [hresult] at hother
      exact ⟨fun _ heq => (by cases heq), fun err heq => hother.refusal err (by cases heq; rfl)⟩
    | ok answer =>
      rw [hresult] at hother
      exact .ofResponses (hother.responses answer rfl)

theorem validateContext_lines (ctx : Context) (request : Request) (w : World) :
    RefusesInLines (x.validateContext ctx request w) := by
  refine .bind ?_ fun _ => ?_
  · unfold validateSubscriptionContext
    split
    · exact .ok _
    · exact .ite (.error (oneLine_resp rfl rfl))
        (.ite (.error (oneLine_resp rfl rfl)) (.ok _))
  · refine .ite (.ok _) ?_
    split
    · exact .ok _
    · exact .ite (.ok _) (.error (oneLine_resp rfl rfl))

section

variable (hx : x.SpeaksInLines)
include hx

/-- A name the table does not have is quoted in the refusal. -/
theorem lookup_lines (request : Request) (now : Instant) :
    RefusesInLines (x.lookup request now) := by
  unfold lookup
  split
  · refine .error (notMem_append (newline_notMem_ascii rfl) ?_)
    exact newline_notMem (hx.runtime.quote request.name)
  · exact .map _ (validate_lines hx.runtime _ _ _)

theorem runRequest_answered (ctx : Context) (env : Env) (request : Request)
    (w : World) : AnsweredIn replyDepth (x.runRequest ctx env request w).2 := by
  unfold runRequest
  split
  · next err heq => exact .refused (validateContext_lines ctx request w err heq)
  · split
    · next err heq => exact .refused (lookup_lines hx request _ err heq)
    · exact runCommand_answered hx ctx env _ request w

/-- The elements of an `EXEC` array are frames, whichever command gave them and whether it was
refused; the array is one level deeper. -/
theorem execLoop_answered (ctx : Context) (queue : List QueuedCommand) :
    ∀ (envs : Nat → Env) (w : World) (acc : ExecuteResult),
      (∀ value ∈ acc.responses, value.Framed replyDepth) →
      AnsweredIn (replyDepth + 1) (x.execLoop ctx envs queue w acc).2 := by
  induction queue with
  | nil =>
    intro envs w acc hacc
    exact .ofResponses (.one (.array hacc))
  | cons queued rest ih =>
    intro envs w acc hacc
    have hrun := runRequest_answered hx ctx (envs 0) queued.request w
    -- one more element, and the rest of the queue
    have hgrown : ∀ {value : Value}, value.Framed replyDepth →
        ∀ element ∈ acc.responses ++ [value], element.Framed replyDepth := by
      intro value hvalue element helement
      rcases mem_append.mp helement with hold | hnew
      · exact hacc element hold
      · exact hvalue.one element hnew
    unfold execLoop
    split
    · exact .canceled
    · next w' err heq =>
      rw [heq] at hrun
      exact ih _ _ _ (hgrown (.response (hrun.refusal err rfl)))
    · next w' result heq =>
      rw [heq] at hrun
      split
      · next response hresponses =>
        refine ih _ _ _ (hgrown (hrun.responses result rfl response ?_))
        rw [hresponses]
        exact mem_singleton_self response
      · exact ih _ _ _ (hgrown (.errorValue (newline_notMem_ascii rfl)))

theorem handleExec_answered (ctx : Context) (envs : Nat → Env) (w : World) :
    AnsweredIn (replyDepth + 1) (x.handleExec ctx envs w).2 := by
  unfold handleExec
  split
  · exact .refused (oneLine_other rfl)
  · split_ifs
    · exact .refused (oneLine_resp rfl rfl)
    · exact .single .nullArray
    · exact execLoop_answered hx ctx _ envs _ _ fun _ hvalue => absurd hvalue not_mem_nil
    · exact .refused (oneLine_resp rfl rfl)

theorem maybeQueue_answered {request : Request} {now : Instant}
    {answer : World × Except Failure ExecuteResult}
    (h : x.maybeQueueRequest ctx request now w = some answer) : AnsweredIn replyDepth answer.2 :=
  x.maybeQueue_rule h (fun err heq => .refused (lookup_lines hx request now err heq))
    fun _ => .single (.simpleString (by decide))

theorem executeRequest_answered (ctx : Context) (envs : Nat → Env) (request : Request) (w : World) :
    AnsweredIn (replyDepth + 1) (x.executeRequest ctx envs request w).2 := by
  unfold executeRequest
  split
  · next err heq => exact .refused (validateContext_lines ctx request w err heq)
  · split
    · next answer heq =>
      exact (maybeQueue_answered hx heq).mono (Nat.le_succ replyDepth)
    · split
      · next err heq => exact .refused (lookup_lines hx request _ err heq)
      · exact handleExec_answered hx ctx _ w
      · exact (runCommand_answered hx ctx _ _ request w).mono (Nat.le_succ replyDepth)

end

theorem oneLine_coerceError {value : Value} {err : CoerceError} (h : value.bytes = .error err) :
    (CommandError.resp "ERR" err.error).OneLine := by
  cases value with
  | bulkString data isNull =>
    cases isNull with
    | false => cases h
    | true =>
      cases h
      exact oneLine_resp rfl rfl
  | textBulkString data isNull =>
    cases isNull with
    | false => cases h
    | true =>
      cases h
      exact oneLine_resp rfl rfl
  | null =>
    cases h
    exact oneLine_resp rfl rfl
  | errorValue message =>
    cases h
    exact oneLine_resp_append (oneLine_resp_append (oneLine_resp rfl rfl)
      (newline_notMem_ascii rfl)) (newline_notMem_ascii rfl)
  | array elements isNull =>
    cases h
    exact oneLine_resp_append (oneLine_resp_append (oneLine_resp rfl rfl)
      (newline_notMem_ascii rfl)) (newline_notMem_ascii rfl)
  | simpleString _ | integer _ | boolean _ => cases h

theorem decodeArgs_lines (values : List Value) : RefusesInLines (decodeArgs values) := by
  induction values with
  | nil => exact .ok _
  | cons value values ih =>
    unfold decodeArgs
    split
    · next err heq => exact .error (oneLine_coerceError heq)
    · exact .map _ ih

theorem decodeRequest_lines (rt : Runtime) (value : Value) :
    RefusesInLines (decodeRequest rt value) := by
  unfold decodeRequest
  split
  · exact .error (oneLine_resp rfl rfl)
  · split
    · next err heq => exact .error (oneLine_coerceError heq)
    · exact .map _ (decodeArgs_lines _)
  · exact .error (oneLine_resp rfl rfl)

theorem execute_answered (hx : x.SpeaksInLines) (ctx : Context) (envs : Nat → Env) (value : Value)
    (w : World) : AnsweredIn (replyDepth + 1) (x.executeDetailed ctx envs value w).2 := by
  unfold executeDetailed
  split
  · next err heq => exact .refused (decodeRequest_lines x.rt value err heq)
  · exact executeRequest_answered hx ctx envs _ w

/-- The replies of the pipeline both networking modes share. -/
theorem executeClientRequest_framed (hx : x.SpeaksInLines) {d : Durability}
    {envs : Nat → Env} {value : Value} {outcome : ClientOutcome}
    (h : (x.executeClientRequest d ctx envs value w).2 = some outcome) :
    ∀ response ∈ outcome.responses, response.Framed (replyDepth + 1) := by
  have hanswered := execute_answered hx ctx envs value w
  unfold executeClientRequest at h
  split at h
  · cases h
  · next w' err heq =>
    cases h
    rw [heq] at hanswered
    exact .one (.response (hanswered.refusal err rfl))
  · next w' result heq =>
    rw [heq] at hanswered
    split_ifs at h
    · cases h
      exact hanswered.responses result rfl
    · cases h
      exact .one (.errorValue (by decide))

end Executor

/-! ## What the server hands to the executor -/

/-- `SlowlogEntry`. -/
structure SlowlogEntry where
  id : Int
  seconds : Int
  micros : Int
  command : List Bytes
  clientAddr : Bytes

/-- `slowlogEntriesResponse`. -/
def slowlogEntriesResponse (entries : List SlowlogEntry) : Value :=
  .array (entries.map fun entry =>
    .array [integerResponse entry.id, integerResponse entry.seconds, integerResponse entry.micros,
      .array (entry.command.map Value.text) false, .text entry.clientAddr, .text []] false) false

/-- `handleSlowlog` of a validated request, the latest entry first. -/
def handleSlowlog (rt : Runtime) (entries : List SlowlogEntry) (args : List Bytes) : Value :=
  let subcommand := rt.toUpper (args.headD [])
  if subcommand = ascii "GET" then
    let limit := (args.tail.head?.bind readInt64).getD (-1)
    slowlogEntriesResponse (if 0 ≤ limit then entries.take limit.toNat else entries)
  else if subcommand = ascii "LEN" then integerResponse entries.length
  else okResponse

/-- `handleWait`: `acked` replicas are counted at once; `ended` are counted when the wait ends,
unless the connection ends first. -/
def handleWait (acked : Nat) (ended : Option Nat) (inline : Bool) (args : List Bytes) :
    Except Failure Nat :=
  match args.map readInt64 with
  | [some replicas, some timeout] =>
    if replicas ≤ acked ∨ timeout = 0 then .ok acked
    else if inline then .error (.refused (.blockingNotSupported "WAIT"))
    else
      match ended with
      | some count => .ok count
      | none => .error .canceled
  | [_, _] => .error (.refused .valueNotInteger)
  | _ => .error (.refused (.wrongNumberOfArguments "WAIT"))

/-- Why a rewrite is not started: `beginAOFRewrite` and `BeginRewrite`. -/
inductive RewriteRefusal where
  | notEnabled
  | writerClosed
  | storeUnavailable
  | inProgress
  deriving DecidableEq, Repr

def RewriteRefusal.error : RewriteRefusal → CommandError
  | notEnabled => .other "append only file persistence is not enabled"
  | writerClosed => .other "aof: writer closed"
  | storeUnavailable => .other "aof: store unavailable"
  | inProgress => .other "append only file rewrite already in progress"

/-- The rest of the server, as its replies depend on it. -/
structure Surroundings where
  rt : Runtime
  /-- `strconv.QuoteToASCII` -/
  quoteToASCII : Bytes → Bytes
  requirePass : Bytes
  monitorRegistry : Bool
  /-- the random bytes of the replication ID; none without replication state -/
  replicationSeed : Bytes
  replicaOffset : Env → Int
  deliverPubSubMessage : Env → Bytes → Bytes → Nat
  ackedReplicas : Env → Nat
  waitedReplicas : Env → Option Nat
  rewriteRefusal : Env → Option RewriteRefusal
  info : Env → Bytes → Bytes
  slowlogEntries : Env → List SlowlogEntry

namespace Surroundings

/-- The executor of the server. -/
def executor (p : Surroundings) : Executor where
  rt := p.rt
  requirePass := p.requirePass
  monitorRegistry := p.monitorRegistry
  masterReplicationID := hexText p.replicationSeed
  replicaOffset := p.replicaOffset
  deliverPubSubMessage := p.deliverPubSubMessage
  waitForReplicas env := handleWait (p.ackedReplicas env) (p.waitedReplicas env)
  aofRewrite env :=
    match p.rewriteRefusal env with
    | some refusal => .error refusal.error
    | none => .ok ()
  info := p.info
  slowlog env := handleSlowlog p.rt (p.slowlogEntries env)

/-- Quoting emits no control character, and neither does printing numbers. -/
structure Quotes (p : Surroundings) : Prop where
  runtime : p.rt.PrintsLines
  toASCII : ∀ text, ∀ b ∈ p.quoteToASCII text, 32 ≤ b

end Surroundings

theorem hexDigit_ne_newline {n : Nat} (h : n < 16) : hexDigit n ≠ 10 := by
  interval_cases n <;> decide

theorem newline_notMem_hexText (raw : Bytes) : 10 ∉ hexText raw := by
  intro hmem
  obtain ⟨b, -, hb⟩ := mem_flatMap.mp hmem
  have hbyte : b.toNat < 256 := b.toNat_lt
  rcases mem_pair.mp hb with heq | heq
  · exact hexDigit_ne_newline (by omega) heq.symm
  · exact hexDigit_ne_newline (by omega) heq.symm

theorem slowlogEntriesResponse_framed (entries : List SlowlogEntry) :
    (slowlogEntriesResponse entries).Framed replyDepth := by
  refine (Value.Framed.array (n := 2) fun value hvalue => ?_).mono (by decide)
  obtain ⟨entry, -, rfl⟩ := mem_map.mp hvalue
  refine .array fun part hpart => ?_
  simp only [mem_cons, not_mem_nil, or_false] at hpart
  rcases hpart with rfl | rfl | rfl | rfl | rfl | rfl
  · exact .integer _
  · exact .integer _
  · exact .integer _
  · refine .array fun token htoken => ?_
    obtain ⟨text, -, rfl⟩ := mem_map.mp htoken
    exact .text text
  · exact .text _
  · exact .text _

theorem handleWait_lines {acked : Nat} {ended : Option Nat} {inline : Bool} {args : List Bytes}
    {err : CommandError} (h : handleWait acked ended inline args = .error (.refused err)) :
    err.OneLine := by
  unfold handleWait at h
  split at h
  · split_ifs at h
    · obtain rfl := Failure.refused.inj (Except.error.inj h)
      exact oneLine_resp_append (oneLine_resp rfl rfl)
        (newline_notMem_ascii rfl)
    · cases ended with
      | none => cases h
      | some count => cases h
  · obtain rfl := Failure.refused.inj (Except.error.inj h)
    exact oneLine_valueNotInteger
  · obtain rfl := Failure.refused.inj (Except.error.inj h)
    exact oneLine_arity rfl

theorem Surroundings.Quotes.speaksInLines {p : Surroundings} (hp : p.Quotes) :
    p.executor.SpeaksInLines where
  runtime := hp.runtime
  replicationID := newline_notMem_hexText p.replicationSeed
  wait := fun _ _ _ _ h => handleWait_lines h
  rewrite := fun env => by
    show RefusesInLines (p.executor.aofRewrite env)
    dsimp only [executor]
    split
    · next refusal _ =>
      refine .error ?_
      cases refusal <;> exact oneLine_other rfl
    · exact .ok _
  slowlog := fun env args => by
    dsimp only [executor, handleSlowlog]
    split_ifs
    · exact slowlogEntriesResponse_framed _
    · exact slowlogEntriesResponse_framed _
    · exact .integer _
    · exact .ok

/-! ## Monitor lines -/

/-- What `Addr.String` prints: an address and a port. -/
structure RemoteAddr where
  text : Bytes
  line : 10 ∉ text

/-- `observedCommand`. -/
structure ObservedCommand where
  parts : List Bytes
  clientID : Nat
  clientAddr : Option RemoteAddr
  timestamp : Instant

/-- `commandParts`. -/
def commandParts : Value → Option (List Bytes)
  | .array (first :: rest) false => (first :: rest).mapM fun element => element.bytes.toOption
  | _ => none

/-- `observeCommand`. -/
def observeCommand (rt : Runtime) (value : Value) (clientID : Nat) (clientAddr : Option RemoteAddr)
    (now : Instant) : Option ObservedCommand :=
  (commandParts value).map fun parts =>
    ⟨(parts.head?.map rt.toUpper).toList ++ parts.tail, clientID, clientAddr, now⟩

/-- `monitorLine`. -/
def monitorLine (quoteToASCII : Bytes → Bytes) (command : ObservedCommand) : Bytes :=
  let microText := formatInt (command.timestamp.nanos % 10 ^ 9 / 1000 : Nat)
  formatInt (command.timestamp.nanos / 10 ^ 9 : Nat) ++ ascii "." ++
    List.replicate (6 - microText.length) 48 ++ microText ++ ascii " [" ++
    formatInt command.clientID ++ ascii " " ++ (command.clientAddr.map RemoteAddr.text).getD [] ++
    ascii "]" ++ command.parts.flatMap fun part => 32 :: quoteToASCII part

/-- Whatever the client sent stands quoted in the line. -/
theorem newline_notMem_monitorLine {quoteToASCII : Bytes → Bytes}
    (hquote : ∀ text, ∀ b ∈ quoteToASCII text, 32 ≤ b) (command : ObservedCommand) :
    10 ∉ monitorLine quoteToASCII command := by
  have hparts : 10 ∉ command.parts.flatMap fun part => 32 :: quoteToASCII part := by
    intro hmem
    obtain ⟨part, -, hpart⟩ := mem_flatMap.mp hmem
    rcases mem_cons.mp hpart with heq | hquoted
    · exact absurd heq (by decide)
    · exact newline_notMem (hquote part) hquoted
  have haddr : 10 ∉ (command.clientAddr.map RemoteAddr.text).getD [] := by
    cases command.clientAddr with
    | none => exact not_mem_nil
    | some addr => exact addr.line
  have hzeros : ∀ n, (10 : UInt8) ∉ List.replicate n 48 := by
    intro n hmem
    exact absurd (eq_of_mem_replicate hmem) (by decide)
  have hdot : (10 : UInt8) ∉ ascii "." := by decide
  have hopen : (10 : UInt8) ∉ ascii " [" := by decide
  have hblank : (10 : UInt8) ∉ ascii " " := by decide
  have hclose : (10 : UInt8) ∉ ascii "]" := by decide
  have hnumber := newline_notMem_formatInt
  unfold monitorLine
  simp only [mem_append, not_or]
  exact ⟨⟨⟨⟨⟨⟨⟨⟨⟨hnumber _, hdot⟩, hzeros _⟩, hnumber _⟩, hopen⟩, hnumber _⟩, hblank⟩, haddr⟩, hclose⟩,
    hparts⟩

/-! ## Protocol errors -/

theorem ErrorContext.newline_notMem_text (context : ErrorContext) : 10 ∉ context.text := by
  cases context with
  | arrayElement index =>
    exact notMem_append (notMem_append (newline_notMem_ascii rfl)
      (newline_notMem_formatInt _)) (by decide)
  | _ => exact newline_notMem_ascii rfl

/-- The texts of the parser, wrapped however often: what was read stands quoted in them. -/
theorem ParseError.newline_notMem_text {quote : Bytes → Bytes}
    (hquote : ∀ text, ∀ b ∈ quote text, 32 ≤ b) (err : ParseError) : 10 ∉ err.text quote := by
  have hquoted : ∀ text, 10 ∉ quote text := fun text => newline_notMem (hquote text)
  induction err with
  | unsupportedPrefix marker => exact notMem_append (newline_notMem_ascii rfl) (hquoted _)
  | invalidBooleanMarker line => exact notMem_append (newline_notMem_ascii rfl) (hquoted _)
  | invalidNullPayload line => exact notMem_append (newline_notMem_ascii rfl) (hquoted _)
  | invalidBulkLength length =>
    exact notMem_append (newline_notMem_ascii rfl) (newline_notMem_formatInt _)
  | invalidArrayLength count =>
    exact notMem_append (newline_notMem_ascii rfl) (newline_notMem_formatInt _)
  | lineExceedsLimit | nestingExceedsLimit =>
    exact notMem_append (notMem_append (newline_notMem_ascii rfl)
      (newline_notMem_formatInt _)) (newline_notMem_ascii rfl)
  | bulkLengthExceedsLimit length | arrayLengthExceedsLimit count =>
    exact notMem_append (notMem_append (notMem_append (notMem_append
      (newline_notMem_ascii rfl) (newline_notMem_formatInt _))
      (newline_notMem_ascii rfl)) (newline_notMem_formatInt _))
      (newline_notMem_ascii rfl)
  | wrap context inner ih => exact notMem_append context.newline_notMem_text ih
  | eof | unexpectedEOF | missingCRLF | invalidSyntax | valueRange =>
    exact newline_notMem_ascii rfl

theorem ProtoError.newline_notMem_text {quote : Bytes → Bytes}
    (hquote : ∀ text, ∀ b ∈ quote text, 32 ≤ b) (err : ProtoError) : 10 ∉ err.text quote := by
  cases err with
  | malformed err => exact err.newline_notMem_text hquote
  | frameExceedsLimit limit =>
    exact notMem_append (notMem_append (newline_notMem_ascii rfl)
      (newline_notMem_formatInt _)) (newline_notMem_ascii rfl)

/-! ## Everything that is sent -/

namespace Surroundings

/-- What a client is sent: the replies to its requests, on the event loop or in a goroutine of its
own; the reply to input that is no request; and, when it monitors, the commands of others. -/
inductive Sends (p : Surroundings) : Value → Prop where
  | reply {d : Durability} {ctx : Context} {envs : Nat → Env} {request : Value} {w : World}
    {outcome : ClientOutcome} {response : Value}
    (served : (p.executor.executeClientRequest d ctx envs request w).2 = some outcome)
    (response_mem : response ∈ outcome.responses) : Sends p response
  | protocolError (err : ProtoError) : Sends p (ConnMachine.protoReply p.rt.quote err)
  | monitored {request : Value} {clientID : Nat} {clientAddr : Option RemoteAddr} {now : Instant}
    {command : ObservedCommand}
    (observed : observeCommand p.rt request clientID clientAddr now = some command) :
    Sends p (.simpleString (monitorLine p.quoteToASCII command))

theorem Sends.framed {p : Surroundings} (hp : p.Quotes) {value : Value} (h : p.Sends value) :
    value.Framed (replyDepth + 1) := by
  cases h with
  | reply served hmem =>
    exact Executor.executeClientRequest_framed hp.speaksInLines served value hmem
  | protocolError err =>
    exact .errorValue (notMem_append (by decide) (err.newline_notMem_text hp.runtime.quote))
  | monitored _ => exact .simpleString (newline_notMem_monitorLine hp.toASCII _)

/-- **Replies cannot be split**: no line of what a client is sent has a line feed in it, and the
encoding is read back as exactly one frame. -/
theorem replies_are_single_frames (p : Surroundings) (hp : p.Quotes) {value : Value}
    (h : p.Sends value) :
    value.NewlineFree ∧ (value.Representable →
      decode value.encode = .ok (value.norm, value.encode.length)) := by
  have hframed := h.framed hp
  refine ⟨hframed.newlineFree, fun hsize => ?_⟩
  have hdepth : replyDepth + 1 ≤ maxNestingDepth := by decide
  have hdecode :=
    (decode_encode value hsize (hframed.shallow.trans hdepth) hframed.newlineFree []).1
  rwa [append_nil] at hdecode

/-- A server with silent surroundings. -/
def quiet : Surroundings where
  rt := .ofBits
  quoteToASCII := quoteAscii
  requirePass := []
  monitorRegistry := true
  replicationSeed := []
  replicaOffset _ := 0
  deliverPubSubMessage _ _ _ := 0
  ackedReplicas _ := 0
  waitedReplicas _ := none
  rewriteRefusal _ := none
  info _ _ := []
  slowlogEntries _ := []

theorem quotes_quiet : quiet.Quotes where
  runtime := ⟨quoteAscii_printable, fun _ _ b hb => (by cases hb)⟩
  toASCII := quoteAscii_printable

/-- An inline command, whose first byte is no marker. -/
theorem replies_are_single_frames_inline :
    let reply := ConnMachine.protoReply quiet.rt.quote (.malformed (.unsupportedPrefix 80))
    reply = .errorValue (ascii "ERR protocol: unsupported frame prefix \"P\"") ∧
      (quiet.Quotes ∧ quiet.Sends reply ∧ reply.Representable) ∧ reply.NewlineFree ∧
      decode reply.encode = .ok (reply.norm, reply.encode.length) := by
  intro reply
  have htext : reply = .errorValue (ascii "ERR protocol: unsupported frame prefix \"P\"") := by
    refine congrArg Value.errorValue ?_
    decide +kernel
  have hsends : quiet.Sends reply := .protocolError _
  have hsize : reply.Representable := by
    unfold Value.Representable
    decide +kernel
  have hreply := replies_are_single_frames quiet quotes_quiet hsends
  exact ⟨htext, ⟨quotes_quiet, hsends, hsize⟩, hreply.1, hreply.2 hsize⟩

end Surroundings

end Stash
