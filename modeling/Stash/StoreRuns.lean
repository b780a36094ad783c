import Stash.Snapshot
import Stash.StoreSteps

/-!
# Runs of the store

Every public operation of the store as one step: a write of a key, a read of a key, or an
operation on many keys.  A step gives the next store and its answer, which is an error, or what was
asked for together with the keys that were evicted on the way.

How a write of one key is carried out is its `Plan`: it is refused for its arguments, it goes
through `writeKey`, or it takes something from the key and needs no room.
-/

namespace Stash

open GoMap

/-- What an operation hands out. -/
inductive Datum where
  | done
  | number (value : Int)
  | count (value : Nat)
  | flag (value : Bool)
  | text (value : Bytes)
  | item (value : Option Bytes)
  | bits (value : Option Int)
  | items (values : Option (List Bytes))
  | scores (values : Option (List (Option Score)))
  | ranked (entries : Option (List ZSetEntry))
  | streamed (entries : Option (List StreamEntry))
  | field (value : Option (Option Bytes))
  | fields (pairs : Option (List HashFieldValue))
  | isMember (value : Option Bool)
  | members (values : Option (List Bytes))
  /-- the merged registers, of which `PFCount` returns the estimate -/
  | registers (merged : Bytes)
  | removed (keys : List Bytes)
  | snapshot (entries : List SnapshotEntry)
  | strings (entries : List StringSnapshotEntry)
  | size (keys : Nat)
  | kinds (counts : Kind → Int)

/-- The answer of an operation: an error, or what it hands out and the keys it evicted. -/
abbrev Answer := Except StorageError (Datum × List Bytes)

/-- The writes of the store, as functions of one key. -/
inductive Mutation where
  | set (value : Bytes) (expiresAt : Int)
  | increment
  | setBit (offset bit : Int)
  | pfAdd (elements : List Bytes)
  | push (left : Bool) (values : List Bytes)
  | pop (left : Bool)
  | popN (left : Bool) (count : Int)
  | zAdd (entries : List ZSetEntry)
  | xAdd (rawID : Bytes) (values : List Bytes)
  | hSet (pairs : List HashFieldValue)
  | hDel (fields : List Bytes)
  | sAdd (members : List Bytes)
  | sRem (members : List Bytes)
  | delete

/-- The reads of one key. -/
inductive Query where
  | get
  | getBit (offset : Int)
  | bitCount (range : Option (Int × Int))
  | listRange (start stop : Int)
  | zScores (members : List Bytes)
  | zRange (start stop : Int)
  | zRangeByScores (within : Score → Bool)
  | xRead (rawID : Bytes)
  | hGet (field : Bytes)
  | hGetAll
  | sIsMember (member : Bytes)
  | sMembers

/-- The operations of the store. -/
inductive StoreOp where
  | write (key : Bytes) (m : Mutation)
  | read (key : Bytes) (q : Query)
  | pfCount (keys : List Bytes)
  | deleteMany (keys : List Bytes)
  | snapshotAll
  | snapshotStrings
  | len
  | keyStats
  | configureMaxMemory (limit sampleSize : Int)
  | enforceMaxMemory
  | evictExpired (sampleSize : Nat)
  | replaceWith (other : Store)

namespace Store

/-- The answer of an operation that may evict keys. -/
def wrote {ρ : Type} (datum : ρ → Datum) (r : Store × Except StorageError (ρ × List Bytes)) :
    Store × Answer :=
  r.map id fun a => a.map fun b => (datum b.1, b.2)

/-- The answer of an operation that evicts nothing. -/
def told {ρ : Type} (datum : ρ → Datum) (r : Store × Except StorageError ρ) : Store × Answer :=
  r.map id fun a => a.map fun b => (datum b, [])

/-- A write of one key, with its answer. -/
def write (s : Store) (key : Bytes) (m : Mutation) (env : Env) : Store × Answer :=
  match m with
  | .set value expiresAt => wrote (fun _ => .done) (s.set key value expiresAt env)
  | .increment => wrote .number (s.increment key env)
  | .setBit offset bit => wrote .number (s.setBit key offset bit env)
  | .pfAdd elements => wrote .number (s.pfAdd key elements env)
  | .push left values => wrote .count (s.pushList key left values env)
  | .pop left => told .item (s.pop key left env)
  | .popN left count => told .items (s.popN key left count env)
  | .zAdd entries => wrote .count (s.zAdd key entries env)
  | .xAdd rawID values => wrote .text (s.xAdd key rawID values env)
  | .hSet pairs => wrote .count (s.hSet key pairs env)
  | .hDel fields => told .count (s.hDel key fields env)
  | .sAdd members => wrote .count (s.sAdd key members env)
  | .sRem members => told .count (s.sRem key members env)
  | .delete => told .flag ((s.delete key env).map id .ok)

/-- A read of one key. -/
def read (s : Store) (key : Bytes) (q : Query) (env : Env) : Store × Answer :=
  match q with
  | .get => told .item (s.get key env)
  | .getBit offset => told .bits (s.getBit key offset env)
  | .bitCount range => told .bits (s.bitCount key range env)
  | .listRange start stop => told .items (s.listRange key start stop env)
  | .zScores members => told .scores (s.zScores key members env)
  | .zRange start stop => told .ranked (s.zRange key start stop env)
  | .zRangeByScores within => told .ranked (s.zRangeWithin key within env)
  | .xRead rawID => told .streamed (s.xRead key rawID env)
  | .hGet field => told .field (s.hGet key field env)
  | .hGetAll => told .fields (s.hGetAll key env)
  | .sIsMember member => told .isMember (s.sIsMember key member env)
  | .sMembers => told .members (s.sMembers key env)

/-- Reads delete a key past its deadline, or refresh the stamp of a value. -/
theorem KeptByDeletion.read {I : Store → Prop} (hI : KeptByDeletion I) {s : Store} (h : I s)
    (key : Bytes) (q : Query) (env : Env)
    (htouch : ∀ value, s.lookup key = some value → I (s.put key (value.touch (env.now 0)))) :
    I (s.read key q env).1 := by
  cases q with
  | getBit offset =>
    simp only [Store.read, getBit]
    cases validateBitmapOffset offset with
    | error err => exact h
    | ok _ => exact hI.readKey h key env _ htouch
  | _ => exact hI.readKey h key env _ htouch

end Store

/-- A write without its datum: the evicted keys or the error. -/
def Store.mutate (s : Store) (key : Bytes) (m : Mutation) (env : Env) :
    Store × Except StorageError (List Bytes) :=
  (s.write key m env).map id fun a => a.map Prod.snd

/-- One operation of the store. -/
def StoreOp.run (op : StoreOp) (s : Store) (env : Env) : Store × Answer :=
  match op with
  | .write key m => s.write key m env
  | .read key q => s.read key q env
  | .pfCount keys => Store.told .registers (s.pfCount keys env)
  | .deleteMany keys => Store.told .removed ((s.deleteMany keys env).map id .ok)
  | .snapshotAll => (s, .ok (.snapshot (s.snapshotAll env), []))
  | .snapshotStrings => (s, .ok (.strings (s.snapshotStrings env), []))
  | .len => (s, .ok (.size s.totalKeyCountLocked, []))
  | .keyStats => (s, .ok (.kinds s.keyKindCounts, []))
  | .configureMaxMemory limit sampleSize =>
    (s.configureMaxMemory limit sampleSize env, .ok (.done, []))
  | .enforceMaxMemory => (s.enforceMaxMemory env).map id fun r => r.map fun evicted => (.done, evicted)
  | .evictExpired sampleSize => (s.evictExpiredSample sampleSize env, .ok (.done, []))
  | .replaceWith other => (s.replaceWith other env, .ok (.done, []))

/-- A store that came about by operations, from an empty one. -/
inductive Store.Reachable : Store → Prop where
  | new (hash : Bytes → Fin 256) : Reachable (.newStore hash)
  | step {s : Store} (op : StoreOp) (env : Env) (hs : Reachable s)
    (hother : ∀ other, op = .replaceWith other → Reachable other) : Reachable (op.run s env).1

/-! ## How a write is carried out -/

/-- The action with another result. -/
def Store.WriteAction.map {ρ τ : Type} (f : ρ → τ) : Store.WriteAction ρ → Store.WriteAction τ
  | .fail err => .fail err
  | .inPlace value result => .inPlace value (f result)
  | .commit value result => .commit value (f result)

/-- How a write of one key is carried out. -/
inductive Plan where
  /-- the arguments are refused -/
  | refuse (err : StorageError)
  /-- through `writeKey` -/
  | through (fn : Store.KeyWrite → Store.WriteAction Datum)
  /-- by taking from the value -/
  | take (stamp : Int) (absent : Datum)
    (fn : Payload → Except StorageError (Option (Payload × Datum)))
  | delete

/-- The plan of a write whose arguments are fine. -/
def Plan.writing {ρ : Type} (datum : ρ → Datum) (fn : Store.KeyWrite → Store.WriteAction ρ) :
    Plan :=
  .through fun write => (fn write).map datum

def Plan.taking {ρ : Type} (datum : ρ → Datum) (stamp : Int) (absent : ρ)
    (fn : Payload → Except StorageError (Option (Payload × ρ))) : Plan :=
  .take stamp (datum absent) fun payload =>
    (fn payload).map fun r => r.map fun left => (left.1, datum left.2)

namespace Mutation

/-- The plan of a write, which depends on the readings of the clock for its stamps and on the
order of the iterations. -/
def plan (env : Env) : Mutation → Plan
  | .set value expiresAt => .writing (fun _ => .done) (Store.setAction value expiresAt (env.now 1))
  | .increment => .writing .number (Store.incrementAction (env.now 1))
  | .setBit offset bit =>
    match validateBitmapArguments offset bit with
    | .error err => .refuse err
    | .ok () => .writing .number (Store.setBitAction offset bit)
  | .pfAdd elements => .writing .number (Store.pfAddAction elements)
  | .push left values =>
    if h : values = [] then .refuse .syntaxError
    else .writing .count (Store.pushAction left values h (env.now 1))
  | .pop left => .taking .item (env.now 1) none (Store.popPayload left)
  | .popN left count =>
    if count < 0 then .refuse .syntaxError
    else .taking .items (env.now 1) none (Store.popNPayload left count.toNat)
  | .zAdd entries =>
    if h : entries = [] then .refuse .syntaxError
    else .writing .count (Store.zAddAction entries h (env.order 0))
  | .xAdd rawID values =>
    if h : Payload.PairedValues values then .writing .text (Store.xAddAction rawID values h)
    else .refuse .syntaxError
  | .hSet pairs =>
    if h : pairs = [] then .refuse .syntaxError
    else .writing .count (Store.hSetAction pairs h (env.order 0))
  | .hDel fields =>
    if fields = [] then .refuse .syntaxError
    else .taking .count (env.now 1) 0 (Store.hDelPayload fields)
  | .sAdd members =>
    if h : members = [] then .refuse .syntaxError
    else .writing .count (Store.sAddAction members h (env.order 0))
  | .sRem members =>
    if members = [] then .refuse .syntaxError
    else .taking .count (env.now 0) 0 (Store.sRemPayload members)
  | .delete => .delete

end Mutation

namespace Store

/-- Carry out a plan. -/
def carryOut (s : Store) (key : Bytes) (env : Env) : Plan → Store × Answer
  | .refuse err => (s, .error err)
  | .through fn => s.writeKey key env fn
  | .take stamp absent fn => told id (s.shrinkKey key env stamp absent fn)
  | .delete => told .flag ((s.delete key env).map id .ok)

variable (s : Store) (key : Bytes) (env : Env)

/-- Another result does not change what `writeKey` does. -/
theorem writeKey_map {ρ τ : Type} (f : ρ → τ) (fn : KeyWrite → WriteAction ρ) :
    s.writeKey key env (fun write => (fn write).map f) =
      (s.writeKey key env fn).map id fun a => a.map fun b => (f b.1, b.2) := by
  unfold writeKey
  simp only
  generalize s.prepareExistingValueLocked key (env.clock 0).millis = prepared
  generalize fn ⟨prepared.2, env.clock 0, s.maxMemoryEnabled⟩ = action
  cases action with
  | fail err => rfl
  | inPlace value result => rfl
  | commit value result =>
    unfold perform WriteAction.map
    simp only
    rcases prepared.1.commit key ⟨prepared.2, env.clock 0, s.maxMemoryEnabled⟩ value (env.after 2)
      with ⟨s', err | evicted⟩
    · rfl
    · rfl

/-- Another result does not change what taking does. -/
theorem shrinkKey_map {ρ τ : Type} (stamp : Int) (absent : ρ)
    (f : ρ → τ) (fn : Payload → Except StorageError (Option (Payload × ρ))) :
    s.shrinkKey key env stamp (f absent)
        (fun payload => (fn payload).map fun r => r.map fun left => (left.1, f left.2)) =
      (s.shrinkKey key env stamp absent fn).map id fun a => a.map f := by
  unfold shrinkKey
  cases s.lookup key with
  | none => rfl
  | some value =>
    simp only
    split
    · rfl
    · rcases fn value.payload with err | left | ⟨payload, result⟩
      · rfl
      · rfl
      · by_cases hsound : payload.Sound
        · simp only [Except.map, Option.map_some, dif_pos hsound, Prod.map, id]
        · simp only [Except.map, Option.map_some, dif_neg hsound, Prod.map, id]

theorem carryOut_writing {ρ : Type} (datum : ρ → Datum) (fn : KeyWrite → WriteAction ρ) :
    s.carryOut key env (.writing datum fn) = wrote datum (s.writeKey key env fn) :=
  s.writeKey_map key env datum fn

theorem carryOut_taking {ρ : Type} (datum : ρ → Datum)
    (stamp : Int) (absent : ρ) (fn : Payload → Except StorageError (Option (Payload × ρ))) :
    s.carryOut key env (.taking datum stamp absent fn) =
      told datum (s.shrinkKey key env stamp absent fn) := by
  refine (congrArg (told id) (s.shrinkKey_map key env stamp absent datum fn)).trans ?_
  rcases s.shrinkKey key env stamp absent fn with ⟨s', err | result⟩
  · rfl
  · rfl

/-- **A write is its plan, carried out.** -/
theorem write_eq_carryOut (m : Mutation) (env : Env) :
    s.write key m env = s.carryOut key env (m.plan env) := by
  cases m with
  | set value expiresAt =>
    exact (s.carryOut_writing key env (fun _ => .done) (setAction value expiresAt (env.now 1))).symm
  | increment => exact (s.carryOut_writing key env _ _).symm
  | setBit offset bit =>
    simp only [write, setBit, Mutation.plan]
    cases validateBitmapArguments offset bit with
    | error err => rfl
    | ok _ => exact (s.carryOut_writing key env _ _).symm
  | pfAdd elements => exact (s.carryOut_writing key env _ _).symm
  | push left values =>
    simp only [write, pushList, Mutation.plan]
    split
    · rfl
    · exact (s.carryOut_writing key env _ _).symm
  | pop left => exact (s.carryOut_taking key env _ _ _ _).symm
  | popN left count =>
    simp only [write, popN, Mutation.plan]
    split
    · rfl
    · exact (s.carryOut_taking key env _ _ _ _).symm
  | zAdd entries =>
    simp only [write, zAdd, Mutation.plan]
    split
    · rfl
    · exact (s.carryOut_writing key env _ _).symm
  | xAdd rawID values =>
    simp only [write, xAdd, Mutation.plan]
    split
    · exact (s.carryOut_writing key env _ _).symm
    · rfl
  | hSet pairs =>
    simp only [write, hSet, Mutation.plan]
    split
    · rfl
    · exact (s.carryOut_writing key env _ _).symm
  | hDel fields =>
    simp only [write, hDel, Mutation.plan]
    split
    · rfl
    · exact (s.carryOut_taking key env _ _ _ _).symm
  | sAdd members =>
    simp only [write, sAdd, Mutation.plan]
    split
    · rfl
    · exact (s.carryOut_writing key env _ _).symm
  | sRem members =>
    simp only [write, sRem, Mutation.plan]
    split
    · rfl
    · exact (s.carryOut_taking key env _ _ _ _).symm
  | delete => rfl

end Store

end Stash
