import Stash.AofRewrite
import Stash.RespFrames

/-!
# What the server writes and can read

The encoders put no bound on a frame, the parser does: an array has at most `maxArrayElements`
elements and a bulk string at most `maxBulkStringLength` bytes.  Every frame the server emits for the
append-only file or for a replica has an explicit size in terms of what it is made from, so it is
read back exactly when that size is within the bounds (`emission_reads_back_iff`).
-/

namespace Stash

open DecimalText GoMap Handlers List Function Executor Value

/-- The parser reads the encoded frame back, up to the two kinds of bulk strings, and leaves what
follows it. -/
def ReadsBack (frame : Value) : Prop :=
  ∀ rest, parse (frame.encode ++ rest) = .ok (frame.norm, rest)

/-- The arguments of a command can be read back after its name. -/
def FitCommand (args : List Bytes) : Prop :=
  args.length < maxArrayElements ∧ ∀ arg ∈ args, arg.length ≤ maxBulkStringLength

instance (args : List Bytes) : Decidable (FitCommand args) :=
  inferInstanceAs (Decidable (_ ∧ _))

theorem withinLimits_name (c : CommandName) (args : List Bytes) :
    WithinLimits (c.text :: args) ↔ FitCommand args := by
  have hname : c.text.length ≤ maxBulkStringLength := by cases c <;> decide
  simp only [WithinLimits, FitCommand, length_cons, mem_cons, forall_eq_or_imp]
  constructor
  · rintro ⟨hcount, -, hargs⟩
    exact ⟨hcount, hargs⟩
  · rintro ⟨hcount, hargs⟩
    exact ⟨hcount, hname, hargs⟩

/-- A frame that is encoded like a command is read back exactly within the limits. -/
theorem readsBack_iff {frame : Value} {tokens : List Bytes}
    (hencode : frame.encode = (commandFrame tokens).encode)
    (hnorm : frame.norm = commandFrame tokens) : ReadsBack frame ↔ WithinLimits tokens := by
  constructor
  · intro h
    by_contra hlimits
    obtain ⟨err, herr, -⟩ := parse_commandFrame_exceeds [] hlimits
    have hparse := h []
    rw [hencode, herr] at hparse
    cases hparse
  · intro h rest
    rw [hencode, hnorm]
    exact parse_commandFrame rest h

theorem readsBack_command (c : CommandName) (args : List Bytes) :
    ReadsBack (.array (text c.text :: args.map bulk) false) ↔ FitCommand args :=
  (readsBack_iff (encode_text_cons c.text args) (norm_text_cons c.text args)).trans
    (withinLimits_name c args)

/-! ## The frames of a rewrite -/

variable {args : List Bytes}

theorem fitCommand_cons {arg : Bytes} :
    FitCommand (arg :: args) ↔ arg.length ≤ maxBulkStringLength ∧
      args.length + 1 < maxArrayElements ∧ ∀ a ∈ args, a.length ≤ maxBulkStringLength := by
  simp only [FitCommand, length_cons, mem_cons, forall_eq_or_imp]
  exact ⟨fun ⟨hcount, harg, hargs⟩ => ⟨harg, hcount, hargs⟩,
    fun ⟨harg, hcount, hargs⟩ => ⟨hcount, harg, hargs⟩⟩

/-- The order of the arguments does not matter. -/
theorem fitCommand_perm {args' : List Bytes} (h : args.Perm args') :
    FitCommand args ↔ FitCommand args' := by
  simp only [FitCommand, h.length_eq, h.mem_iff]

/-- A key whose elements take two arguments each. -/
def FitPairs {α : Type} (key : Bytes) (first second : α → Bytes) (entries : List α) : Prop :=
  key.length ≤ maxBulkStringLength ∧ 2 * entries.length + 1 < maxArrayElements ∧
    ∀ e ∈ entries, (first e).length ≤ maxBulkStringLength ∧ (second e).length ≤ maxBulkStringLength

theorem fitCommand_flatMap {α : Type} (key : Bytes) (first second : α → Bytes) (entries : List α) :
    FitCommand (key :: entries.flatMap fun e => [first e, second e]) ↔
      FitPairs key first second entries := by
  rw [fitCommand_cons, length_flatMap_pair]
  simp only [FitPairs, mem_flatMap, mem_cons, not_mem_nil, or_false]
  refine and_congr_right fun _ => and_congr_right fun _ => ?_
  constructor
  · intro h e he
    exact ⟨h _ ⟨e, he, .inl rfl⟩, h _ ⟨e, he, .inr rfl⟩⟩
  · rintro h a ⟨e, he, rfl | rfl⟩
    · exact (h e he).1
    · exact (h e he).2

/-- The sizes of an entry under which its frames can be read back.  A string past its deadline and
an empty collection have no frame. -/
def SnapshotEntry.Fits (rt : Runtime) (now : Int) (entry : SnapshotEntry) : Prop :=
  match entry.value with
  | .string data =>
    if 0 < entry.expiresAt then
      now < entry.expiresAt →
        FitCommand [entry.key, data, ascii "PX", formatInt (entry.expiresAt - now)]
    else FitCommand [entry.key, data]
  | .list items => items ≠ [] → FitCommand (entry.key :: items)
  | .hash entries => entries ≠ [] → FitPairs entry.key Prod.fst Prod.snd entries
  | .set members => members ≠ [] → FitCommand (entry.key :: members)
  | .zset entries =>
    entries ≠ [] →
      FitPairs entry.key (fun e => rt.formatFloat e.score.bits) ZSetEntry.member entries
  | .stream entries => ∀ e ∈ entries, FitCommand (entry.key :: e.id :: e.values)

/-- The frame of a collection that is not empty. -/
theorem readsBack_unless {α : Type} {elements : List α} {c : CommandName}
    [Decidable (elements = [])] :
    (∀ frame ∈ if elements = [] then [] else [rewriteCommand c args], ReadsBack frame) ↔
      (elements ≠ [] → FitCommand args) := by
  by_cases hempty : elements = []
  · simp [hempty]
  · rw [if_neg hempty]
    simp only [mem_singleton, forall_eq, ne_eq, hempty, not_false_eq_true, forall_const]
    exact readsBack_command c args

theorem rewriteFramesForEntry_readsBack (rt : Runtime) (entry : SnapshotEntry) (now : Int) :
    (∀ frame ∈ rewriteFramesForEntry rt entry now, ReadsBack frame) ↔ entry.Fits rt now := by
  unfold rewriteFramesForEntry SnapshotEntry.Fits
  cases entry.value with
  | string data =>
    by_cases hdeadline : 0 < entry.expiresAt
    · by_cases hnow : entry.expiresAt ≤ now
      · simp [hdeadline, hnow]
      · have hleft : ¬entry.expiresAt - now ≤ 0 := by omega
        simp only [hdeadline, hnow, and_false, if_false, if_true, hleft, mem_singleton,
          forall_eq, not_le.mp hnow, forall_const]
        exact readsBack_command .set _
    · simp only [hdeadline, false_and, if_false, mem_singleton, forall_eq]
      exact readsBack_command .set _
  | list items => exact readsBack_unless
  | hash entries =>
    refine readsBack_unless.trans (imp_congr_right fun _ => ?_)
    rw [fitCommand_flatMap]
    simp only [FitPairs, (perm_sortBy Prod.fst entries).length_eq, (perm_sortBy Prod.fst entries).mem_iff]
  | set members =>
    exact readsBack_unless.trans (imp_congr_right fun _ =>
      fitCommand_perm ((perm_sortBy id members).cons _))
  | zset entries =>
    refine readsBack_unless.trans (imp_congr_right fun _ => ?_)
    exact fitCommand_flatMap entry.key _ _ entries
  | stream entries =>
    simp only [forall_mem_map]
    exact forall₂_congr fun e _ => readsBack_command .xAdd _

/-- **A rewrite can be loaded exactly if every entry fits.** -/
theorem generateRewrite_readsBack (rt : Runtime) (entries : List SnapshotEntry) (now : Int) :
    (∀ frame ∈ generateRewrite rt entries now, ReadsBack frame) ↔
      ∀ entry ∈ entries, entry.Fits rt now := by
  simp only [generateRewrite, mem_flatMap, (perm_sortBy SnapshotEntry.key entries).mem_iff,
    ← rewriteFramesForEntry_readsBack]
  exact ⟨fun h entry hentry frame hframe => h frame ⟨entry, hentry, hframe⟩,
    fun h frame ⟨entry, hentry, hframe⟩ => h entry hentry frame hframe⟩

/-! ## The size of a snapshot -/

namespace Rdb

/-- The bytes of a string with its length. -/
def stringSize (value : Bytes) : Nat :=
  (if value.length < 2 ^ 6 then 1 else if value.length < 2 ^ 14 then 2 else 5) + value.length

/-- The bytes of a key in a snapshot. -/
def entrySize (now : Int) (entry : StringSnapshotEntry) : Nat :=
  if 0 < entry.expiresAt ∧ entry.expiresAt ≤ now then 0
  else (if 0 < entry.expiresAt then 9 else 0) + 1 + stringSize entry.key + stringSize entry.value

/-- The bytes of a snapshot. -/
def snapshotSize (entries : List StringSnapshotEntry) (now : Int) : Nat :=
  if entries = [] then 18 else 20 + (entries.map (entrySize now)).sum

theorem length_encodeString (value : Bytes) : (encodeString value).length = stringSize value := by
  rw [encodeString, length_append, stringSize, encodeLength]
  split
  · rfl
  · split
    · rfl
    · simp [length_littleEndian]

theorem length_encodeEntry (now : Int) (entry : StringSnapshotEntry) :
    (encodeEntry now entry).length = entrySize now entry := by
  unfold encodeEntry entrySize
  split
  · rfl
  · rw [length_append, length_cons, length_append, length_encodeString,
      length_encodeString]
    split
    · rw [length_cons, length_littleEndian]
      omega
    · rw [length_nil]
      omega

theorem length_buildSnapshot (entries : List StringSnapshotEntry) (now : Int) :
    (buildSnapshot entries now).length = snapshotSize entries now := by
  unfold buildSnapshot snapshotSize
  split
  · rfl
  · have hentries : ((sortBy StringSnapshotEntry.key entries).map (entrySize now)).sum =
        (entries.map (entrySize now)).sum :=
      ((perm_sortBy StringSnapshotEntry.key entries).map _).sum_eq
    have hlength : (fun e => (encodeEntry now e).length) = entrySize now :=
      funext fun e => length_encodeEntry now e
    simp only [length_append, length_cons, length_flatMap, length_replicate,
      hlength, hentries]
    change 9 + (1 + 1) + _ + 9 = _
    omega

end Rdb

/-! ## What the server emits -/

/-- What frames are made from. -/
inductive Emission where
  /-- the rewrite of the append-only file -/
  | rewrite (s : Store) (env : Env) (now : Int)
  /-- the deletion of keys that were evicted or had expired -/
  | delete (keys : List Bytes)
  /-- a command that was run, a SET with the deadline it came to -/
  | command (c : CommandName) (args : List Bytes) (deadline : Int)
  /-- the snapshot for a replica -/
  | fullResync (s : Store) (env : Env) (now : Int)

namespace Emission

def frames (rt : Runtime) : Emission → List Value
  | rewrite s env now => generateRewrite rt (s.snapshotAll env) now
  | delete keys => [deleteFrame keys]
  | command c args deadline => [commandFrameOf c ⟨c.text, args⟩ deadline]
  | fullResync s env now => [.bulk (Rdb.buildSnapshot (s.snapshotStrings env) now)]

/-- The sizes under which the frames can be read back. -/
def Fits (rt : Runtime) : Emission → Prop
  | rewrite s env now => ∀ entry ∈ s.snapshotAll env, entry.Fits rt now
  | delete keys => FitCommand keys
  | command c args deadline => FitCommand (loggedArgs c args deadline)
  | fullResync s env now => Rdb.snapshotSize (s.snapshotStrings env) now ≤ maxBulkStringLength

/-- The frame of a command that was run is that of its logged arguments. -/
theorem readsBack_commandFrameOf (c : CommandName) (args : List Bytes) (deadline : Int) :
    ReadsBack (commandFrameOf c ⟨c.text, args⟩ deadline) ↔
      FitCommand (loggedArgs c args deadline) := by
  cases c with
  | set =>
    match args with
    | [] | [_] => exact readsBack_command .set _
    | key :: value :: options =>
      by_cases hdeadline : 0 < deadline
      · simp only [commandFrameOf, rewriteSetFrame, loggedArgs, if_pos hdeadline]
        refine (readsBack_iff ?_ ?_).trans (withinLimits_name .set _)
        · simp [commandFrame, encode, encodeValues]
        · simp [commandFrame, Value.norm, normAll_eq_map]
      · simp only [commandFrameOf, rewriteSetFrame, loggedArgs, if_neg hdeadline]
        exact readsBack_command .set _
  | _ => exact readsBack_command _ args

theorem readsBack_iff_fits (rt : Runtime) (e : Emission) :
    (∀ frame ∈ e.frames rt, ReadsBack frame) ↔ e.Fits rt := by
  cases e with
  | rewrite s env now => exact generateRewrite_readsBack rt _ now
  | delete keys =>
    simp only [frames, mem_singleton, forall_eq]
    exact readsBack_command .del keys
  | command c args deadline =>
    simp only [frames, mem_singleton, forall_eq]
    exact readsBack_commandFrameOf c args deadline
  | fullResync s env now =>
    simp only [frames, mem_singleton, forall_eq, Fits, ← Rdb.length_buildSnapshot]
    constructor
    · intro h
      by_contra hlength
      obtain ⟨err, herr, -⟩ :=
        parseValue_encodeBulk_exceeds maxNestingDepth [] (not_le.mp hlength)
      have hparse := h []
      rw [encode_bulk, parse, herr] at hparse
      cases hparse
    · intro h rest
      rw [encode_bulk, norm_bulk]
      exact parseValue_encodeBulk maxNestingDepth rest h

/-- A store command replies that it evicted the keys. -/
def EvictedBy (rt : Runtime) (inline : Bool) (keys : List Bytes) : Prop :=
  ∃ c handler s args env reply, storeHandler rt inline c = some handler ∧
    (handler s args env).2 = .ok reply ∧ reply.evicted = keys

/-- What a request emits: its own command, those of its queue, and the deletion of what a store
command evicted to make room. -/
inductive CausedBy (rt : Runtime) (ctx : Context) (value : Value) (w : World) : Emission → Prop where
  | request {c : CommandName} {args : List Bytes} (deadline : Int)
    (decoded : decodeRequest rt value = .ok ⟨c.text, args⟩) :
    CausedBy rt ctx value w (command c args deadline)
  | queued {c : CommandName} {args : List Bytes} (deadline : Int) {state : ClientState}
    (client : w.clientState ctx = some state) {queued : QueuedCommand}
    (mem : queued ∈ state.txQueue) (request : queued.request = ⟨c.text, args⟩) :
    CausedBy rt ctx value w (command c args deadline)
  | evicted (keys : List Bytes) (evicted : EvictedBy rt ctx.inline keys) :
    CausedBy rt ctx value w (delete keys)

end Emission

namespace Executor

variable (x : Executor)

/-- Every frame of an outcome is that of an emission with `P`. -/
def Emits (P : Emission → Prop) (outcome : Except Failure ExecuteResult) : Prop :=
  ∀ result, outcome = .ok result →
    ∀ frame ∈ result.durability ++ result.propagation, ∃ e, P e ∧ frame ∈ e.frames x.rt

variable {P : Emission → Prop}

theorem emits_error (failure : Failure) : x.Emits P (.error failure) :=
  fun _ h => by cases h

theorem mem_evictionFrames {evicted : List Bytes} {frame : Value}
    (h : frame ∈ evictionFrames evicted) : evicted ≠ [] ∧ frame = deleteFrame evicted := by
  unfold evictionFrames at h
  split at h
  · cases h
  · exact ⟨‹_›, mem_singleton.mp h⟩

/-- The frames of one command: its own and that of the evicted keys. -/
theorem mem_commandFrames {ctx : Context} {c : CommandName} {request : Request} {reply : Reply}
    {frame : Value} (h : frame ∈ durabilityFrames c request reply ++
      propagationFrames ctx c request reply) :
    frame = commandFrameOf c request reply.setExpiryMillis ∨
      reply.evicted ≠ [] ∧ frame = deleteFrame reply.evicted := by
  unfold durabilityFrames propagationFrames at h
  rcases mem_append.mp h with h | h
  · rcases mem_append.mp h with h | h
    · split at h
      · exact .inl (mem_singleton.mp h)
      · cases h
    · exact .inr (mem_evictionFrames h)
  · split at h
    · cases h
    · rcases mem_append.mp h with h | h
      · split at h
        · exact .inl (mem_singleton.mp h)
        · cases h
      · exact .inr (mem_evictionFrames h)

section

variable {ctx : Context}
  (hevicted : ∀ keys, Emission.EvictedBy x.rt ctx.inline keys → P (.delete keys))
include hevicted

theorem runCommand_emits {c : CommandName} {args : List Bytes}
    (hcommand : ∀ deadline, P (.command c args deadline)) (env : Env) (w : World) :
    x.Emits P (x.runCommand ctx env c ⟨c.text, args⟩ w).2 := by
  have hframes : ∀ reply : Reply, (reply.evicted ≠ [] → P (.delete reply.evicted)) →
      ∀ frame ∈ durabilityFrames c ⟨c.text, args⟩ reply ++
        propagationFrames ctx c ⟨c.text, args⟩ reply, ∃ e, P e ∧ frame ∈ e.frames x.rt := by
    intro reply hreply frame hframe
    rcases mem_commandFrames hframe with rfl | ⟨hne, rfl⟩
    · exact ⟨_, hcommand reply.setExpiryMillis, mem_singleton_self _⟩
    · exact ⟨_, hreply hne, mem_singleton_self _⟩
  intro result hresult frame hframe
  cases hc : storeHandler x.rt ctx.inline c with
  | some handler =>
    rw [(@runCommand_eq x ctx env c ⟨c.text, args⟩ handler hc w).2] at hresult
    obtain ⟨reply, hreply, rfl⟩ := map_ok hresult
    exact hframes reply (fun _ => hevicted _ ⟨c, handler, _, _, _, reply, hc, hreply, rfl⟩) frame
      hframe
  | none =>
    -- a command that does not use the store logs nothing, but its frame may be propagated
    have hother := x.runOther_durability ctx env c args w
    simp only [runCommand, hc] at hresult
    obtain ⟨other, hrun, rfl⟩ := map_ok hresult
    rw [hrun] at hother
    rcases mem_append.mp hframe with hframe | hframe
    · rw [show other.durability = [] from hother] at hframe
      cases hframe
    · exact hframes _ (fun hne => absurd rfl hne) frame (mem_append_right _ hframe)

theorem runRequest_emits {request : Request}
    (hcommand : ∀ c deadline, request.name = CommandName.text c →
      P (.command c request.args deadline))
    (env : Env) (w : World) : x.Emits P (x.runRequest ctx env request w).2 := by
  unfold runRequest
  split
  · exact x.emits_error _
  · split
    · exact x.emits_error _
    · rename_i c hlookup
      obtain ⟨hrequest, -⟩ := x.lookup_ok hlookup
      rw [hrequest]
      exact x.runCommand_emits hevicted
        (fun deadline => hcommand c deadline (congrArg Request.name hrequest)) env w

/-- The frames of a queue are those of its commands. -/
theorem execLoop_emits (queue : List QueuedCommand)
    (hqueue : ∀ queued ∈ queue, ∀ c deadline, queued.request.name = CommandName.text c →
      P (.command c queued.request.args deadline))
    (envs : Nat → Env) (w : World) {acc : ExecuteResult} (hacc : x.Emits P (.ok acc)) :
    x.Emits P (x.execLoop ctx envs queue w acc).2 := by
  induction queue generalizing envs w acc with
  | nil =>
    intro result hresult
    cases hresult
    exact hacc acc rfl
  | cons queued queue ih =>
    have hstep := x.runRequest_emits hevicted (hqueue queued mem_cons_self) (envs 0) w
    have hrest := fun q hq => hqueue q (mem_cons_of_mem _ hq)
    rw [execLoop]
    split
    · exact x.emits_error _
    · exact ih hrest _ _ fun result hresult => by
        cases hresult
        exact hacc acc rfl
    · rename_i result heq
      rw [heq] at hstep
      split
      · refine ih hrest _ _ fun result' hresult' frame hframe => ?_
        cases hresult'
        have hmem : frame ∈ acc.durability ++ acc.propagation ∨
            frame ∈ result.durability ++ result.propagation := by
          simp only [mem_append] at hframe ⊢
          tauto
        rcases hmem with hmem | hmem
        · exact hacc acc rfl frame hmem
        · exact hstep result rfl frame hmem
      · exact ih hrest _ _ fun result' hresult' => by
          cases hresult'
          exact hacc acc rfl

end

/-- **The frames of a request** come from its command, from its queue and from evictions. -/
theorem execute_emits (ctx : Context) (envs : Nat → Env) (value : Value) (w : World) :
    x.Emits (Emission.CausedBy x.rt ctx value w) (x.executeDetailed ctx envs value w).2 := by
  unfold executeDetailed
  split
  · exact x.emits_error _
  · rename_i request hdecode
    refine x.executeRequest_rule (fun err => x.emits_error _) ?_ ?_ ?_
    · intro responses result hresult frame hframe
      cases hresult
      cases hframe
    · intro c hlookup
      obtain ⟨hrequest, -⟩ := x.lookup_ok hlookup
      rw [hrequest] at hdecode ⊢
      exact x.runCommand_emits .evicted (fun deadline => .request deadline hdecode) _ w
    · intro state hstate w'
      refine x.execLoop_emits .evicted _ ?_ _ _ ?_
      · intro queued hqueued c deadline hname
        exact .queued deadline hstate hqueued (by rw [← hname])
      · intro result hresult frame hframe
        cases hresult
        cases hframe

/-- **The server reads back what it emits exactly if what it is made from fits**: the entries of the
snapshot for a rewrite, the deleted keys, the arguments of a command that was run, the size of
the strings for a full resynchronisation.  The frames of a request are of the second and third
kind. -/
theorem emission_reads_back_iff :
    (∀ e : Emission, (∀ frame ∈ e.frames x.rt, ReadsBack frame) ↔ e.Fits x.rt) ∧
      ∀ ctx envs value w result, (x.executeDetailed ctx envs value w).2 = .ok result →
        ∀ frame ∈ result.durability ++ result.propagation,
          ∃ e, Emission.CausedBy x.rt ctx value w e ∧ frame ∈ e.frames x.rt :=
  ⟨Emission.readsBack_iff_fits x.rt, fun ctx envs value w => x.execute_emits ctx envs value w⟩

/-- A store with a list. -/
def listStore : Store :=
  ((Store.newStore fun _ => 0).pushList (ascii "l") true [ascii "a", ascii "b"]
    (.frozen firstSecond)).1

set_option maxRecDepth 4000 in
/-- The deletion of one key and the rewrite of a list are read back, and a SET of a fresh connection
emits its own frame. -/
theorem emission_reads_back_delete :
    (∀ e ∈ [Emission.delete [ascii "k"], .rewrite listStore (.frozen firstSecond) 1000],
        e.frames quiet.rt ≠ [] ∧ ∀ frame ∈ e.frames quiet.rt, ReadsBack frame) ∧
      ∃ result, (quiet.executeDetailed (.ofClient 0) (fun _ => .frozen firstSecond)
          (commandFrame [ascii "SET", ascii "k", ascii "v"]) .initial).2 = .ok result ∧
        ∀ frame ∈ result.durability ++ result.propagation,
          ∃ e, Emission.CausedBy quiet.rt (.ofClient 0)
            (commandFrame [ascii "SET", ascii "k", ascii "v"]) .initial e ∧
            frame ∈ e.frames quiet.rt := by
  have hlist : (Emission.rewrite listStore (.frozen firstSecond) 1000).Fits quiet.rt := by
    intro entry hentry
    obtain rfl := mem_singleton.mp hentry
    exact fun _ => show FitCommand [ascii "l", ascii "b", ascii "a"] by decide
  have hrun : ∃ result, (quiet.executeDetailed (.ofClient 0)
      (fun _ => .frozen firstSecond) (commandFrame [ascii "SET", ascii "k", ascii "v"])
        .initial).2 = .ok result := ⟨_, rfl⟩
  obtain ⟨result, hresult⟩ := hrun
  refine ⟨fun e he => ?_, result, hresult, (emission_reads_back_iff _).2 _ _ _ _ result hresult⟩
  rcases mem_pair.mp he with rfl | rfl
  · exact ⟨by simp [Emission.frames], ((emission_reads_back_iff _).1 _).mpr
      (show FitCommand [ascii "k"] by decide)⟩
  · exact ⟨cons_ne_nil _ _, ((emission_reads_back_iff _).1 _).mpr hlist⟩

theorem denotes_rPush (rt : Runtime) (key : Bytes) {items : List Bytes} (hitems : items ≠ []) :
    Denotes rt (commandFrame (CommandName.rPush.text :: key :: items))
      (.write key (.push false items)) := by
  obtain ⟨item, rest, rfl⟩ := exists_cons_of_ne_nil hitems
  exact denotes_write (decode_command rt .rPush _) (fun _ => rfl) (fun _ => rfl) trivial rfl

theorem payload_of_list {payload : Payload} {items : List Bytes}
    (h : payload.logical = .list items) : payload = .list items := by
  cases payload with
  | list items' =>
    cases h
    rfl
  | string | hash | set | zset | stream => cases h

/-- A list that grew through two commands is rewritten as one. -/
theorem rewrite_pushed_twice (x : Executor) (key : Bytes) {items more : List Bytes}
    (hitems : items ≠ []) (hmore : more ≠ []) (env : Env) (now : Int) :
    ∃ w, x.replay [(env, commandFrame (CommandName.rPush.text :: key :: items)),
        (env, commandFrame (CommandName.rPush.text :: key :: more))] .initial = some w ∧
      rewriteCommand .rPush (key :: (items ++ more)) ∈
        (Emission.rewrite w.store env now).frames x.rt := by
  have hrun : CommutingLog.run LogRecord.act
      [.write key (.push false items), .write key (.push false more)] World.initial.store.view =
        some (update World.initial.store.view key (some ⟨.list (items ++ more), 0⟩)) := by
    have hfirst : (Mutation.push false items).apply 0 none = .ok (some ⟨.list items, 0⟩) := by
      simp only [Mutation.apply, if_neg hitems]
      rfl
    have hsecond : (Mutation.push false more).apply 0 (some ⟨.list items, 0⟩) =
        .ok (some ⟨.list (items ++ more), 0⟩) := by
      simp only [Mutation.apply, if_neg hmore]
      rfl
    have hnone : World.initial.store.view key = none := rfl
    simp only [CommutingLog.run, LogRecord.act, hnone, hfirst, Option.bind_some,
      update_self, hsecond, update_idem]
  obtain ⟨w, hreplay, hview, -⟩ := @replay_of_denotes x _ _
    (.cons (denotes_rPush x.rt key hitems) (.cons (denotes_rPush x.rt key hmore) .nil))
    [(env, _), (env, _)] rfl .initial rfl (fun _ _ k _ e he => by cases he) _ hrun
  refine ⟨w, hreplay, ?_⟩
  have hkey : w.store.view key = some ⟨.list (items ++ more), 0⟩ := by
    rw [hview, update_self]
  obtain ⟨value, hlookup, hvalue⟩ := Option.map_eq_some_iff.mp hkey
  have hpayload := payload_of_list (congrArg Entry.value hvalue)
  have hdeadline : value.expiresAt = 0 := congrArg Entry.expiresAt hvalue
  have hlive : isExpired value.expiresAt (env.now 0) = false := by
    rw [hdeadline]
    rfl
  have hentry := mem_snapshotAll.mpr ⟨key, value, hlookup, hlive, rfl⟩
  refine mem_flatMap.mpr ⟨_, (perm_sortBy SnapshotEntry.key _).mem_iff.mpr hentry, ?_⟩
  have hne : items ++ more ≠ [] := by simp [hitems]
  simp only [rewriteFramesForEntry, snapshotEntry, hpayload, Payload.snapshot, if_neg hne,
    mem_singleton]

/-- As many elements as one command can push. -/
def manyItems : List Bytes :=
  List.replicate 1048574 (ascii "v")

theorem length_manyItems : manyItems.length = 1048574 :=
  length_replicate

/-- A list of 1048575 elements, pushed by two commands the parser accepts, is rewritten as one that
it refuses. -/
theorem rewrite_exceeds_limits :
    ∃ w frame, quiet.replay
        [(.frozen firstSecond, commandFrame (ascii "RPUSH" :: ascii "k" :: manyItems)),
        (.frozen firstSecond, commandFrame [ascii "RPUSH", ascii "k", ascii "v"])] .initial =
          some w ∧
      frame ∈ (Emission.rewrite w.store (.frozen firstSecond) 1000).frames quiet.rt ∧
      ¬ReadsBack frame := by
  have hmany : manyItems ≠ [] := fun h => by
    have := length_manyItems
    rw [h] at this
    cases this
  obtain ⟨w, hreplay, hframe⟩ := @rewrite_pushed_twice quiet (ascii "k") manyItems
    [ascii "v"] hmany (by simp) (.frozen firstSecond) 1000
  refine ⟨w, _, hreplay, hframe, fun hread => ?_⟩
  have hcount := ((readsBack_command .rPush _).mp hread).1
  rw [length_cons, length_append, length_manyItems] at hcount
  exact absurd hcount (by decide)

end Executor

end Stash
