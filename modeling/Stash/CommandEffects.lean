import Stash.Handlers

/-!
# What the commands do to the store

Every command that uses the store is a read, a mutation of one key, a deletion of keys or a
blocking pop.  `CommandName.effect` says which, as a function of the arguments, and
`storeHandler_effect` that the handlers do exactly that.  What is proved about logs later refers to
the effect of a command only.
-/

namespace Stash

open DecimalText GoMap Handlers

/-- What a command does to the store. -/
inductive StoreEffect where
  /-- the arguments are refused -/
  | refuse
  | read
  | write (key : Bytes) (m : Mutation)
  | delete (keys : List Bytes)
  /-- a pop from the left that fails when there is nothing to pop -/
  | take (key : Bytes)

/-- A mutation with parsed arguments. -/
def StoreEffect.ofParsed {α : Type} (key : Bytes) (m : α → Mutation) :
    Except CommandError α → StoreEffect
  | .ok a => .write key (m a)
  | .error _ => .refuse

theorem ofParsed_write {α : Type} {first key : Bytes} {m : Mutation} {f : α → Mutation}
    {arguments : Except CommandError α} (h : StoreEffect.ofParsed first f arguments = .write key m) :
    first = key ∧ ∃ a, arguments = .ok a ∧ m = f a := by
  cases arguments with
  | error err => cases h
  | ok a =>
    cases h
    exact ⟨rfl, a, rfl, rfl⟩

/-- LPOP and RPOP. -/
def popEffect (left : Bool) : List Bytes → StoreEffect
  | [key] => .write key (.pop left)
  | [key, count] => .ofParsed key (.popN left) (parseCountArgument count)
  | _ => .refuse

/-- LPUSH and RPUSH. -/
def pushEffect (left : Bool) : List Bytes → StoreEffect
  | key :: value :: values => .write key (.push left (value :: values))
  | _ => .refuse

/-- The offset and the bit of SETBIT. -/
def parseSetBit (offset bit : Bytes) : Except CommandError (Int × Int) := do
  let offset ← parseBitmapOffsetArgument offset
  let bit ← parseBitValueArgument bit
  return (offset, bit)

/-- The effect of a command; `now` is the reading SET computes its deadline with. -/
def CommandName.effect (rt : Runtime) (c : CommandName) (args : List Bytes) (now : Instant) :
    StoreEffect :=
  match c with
  | .set =>
    match args with
    | key :: value :: options =>
      .ofParsed key (Mutation.set value) ((parseExpiryMillis rt options now).mapError setExpiryError)
    | _ => .refuse
  | .setBit =>
    match args with
    | key :: offset :: bit :: _ =>
      .ofParsed key (fun p => .setBit p.1 p.2) (parseSetBit offset bit)
    | _ => .refuse
  | .pfAdd =>
    match args with
    | key :: elements => .write key (.pfAdd elements)
    | [] => .refuse
  | .del =>
    match args with
    | [] => .refuse
    | keys => .delete keys
  | .incr =>
    match args with
    | [key] => .write key .increment
    | _ => .refuse
  | .lPush => pushEffect true args
  | .rPush => pushEffect false args
  | .lPop => popEffect true args
  | .rPop => popEffect false args
  | .blPop =>
    match args with
    | [key] => .take key
    | _ => .refuse
  | .zAdd =>
    match args with
    | key :: rest => .ofParsed key .zAdd (parseScoreMembers rt rest)
    | [] => .refuse
  | .geoAdd =>
    match args with
    | key :: rest => .ofParsed key .zAdd (parseGeoMembers rt rest)
    | [] => .refuse
  | .xAdd =>
    match args with
    | key :: id :: values => .write key (.xAdd id values)
    | _ => .refuse
  | .hSet =>
    match args with
    | key :: rest => .write key (.hSet (fieldValuePairs rest))
    | [] => .refuse
  | .hDel =>
    match args with
    | key :: field :: fields => .write key (.hDel (field :: fields))
    | _ => .refuse
  | .sAdd =>
    match args with
    | key :: member :: members => .write key (.sAdd (member :: members))
    | _ => .refuse
  | .sRem =>
    match args with
    | key :: member :: members => .write key (.sRem (member :: members))
    | _ => .refuse
  | _ => .read

/-- The deadline a mutation sets. -/
def Mutation.deadline : Mutation → Int
  | set _ expiresAt => expiresAt
  | _ => 0

/-! ## What it means for a handler to have an effect -/

/-- A refused request: the store is as it was. -/
def Refuses (s : Store) (result : Handled) : Prop :=
  result.1 = s ∧ ∃ err, result.2 = .error (.refused err)

/-- A read: nothing but keys past their deadline goes, and the reply is only a response. -/
structure Reads (s : Store) (env : Env) (result : Handled) : Prop where
  fades : ∀ t, env.DoneBy t → Fades t s.view result.1.view
  maxMemory : result.1.maxMemory = s.maxMemory
  reply : (∃ err, result.2 = .error (.refused err)) ∨ ∃ response, result.2 = .ok (.plain response)

/-- A mutation, with its evicted keys and its deadline in the reply. -/
def Writes (s : Store) (key : Bytes) (m : Mutation) (env : Env) (result : Handled) : Prop :=
  result.1 = (s.mutate key m env).1 ∧
    match (s.mutate key m env).2 with
    | .ok evicted =>
      ∃ reply, result.2 = .ok reply ∧ reply.evicted = evicted ∧ reply.setExpiryMillis = m.deadline
    | .error err => result.2 = .error (.refused (storageCommandError err))

/-- A deletion. -/
def Deletes (s : Store) (keys : List Bytes) (env : Env) (result : Handled) : Prop :=
  result.1 = (s.deleteMany keys env).1 ∧
    ∃ reply, result.2 = .ok reply ∧ reply.evicted = [] ∧ reply.setExpiryMillis = 0

/-- A blocking pop. -/
def Takes (s : Store) (key : Bytes) (env : Env) (result : Handled) : Prop :=
  result.1 = (s.pop key true env).1 ∧
    match (s.pop key true env).2 with
    | .ok (some _) =>
      ∃ reply, result.2 = .ok reply ∧ reply.evicted = [] ∧ reply.setExpiryMillis = 0
    | _ => ∃ failure, result.2 = .error failure

def StoreEffect.Describes (effect : StoreEffect) (s : Store) (env : Env) (result : Handled) :
    Prop :=
  match effect with
  | .refuse => Refuses s result
  | .read => Reads s env result
  | .write key m => Writes s key m (env.after 2) result
  | .delete keys => Deletes s keys (env.after 2) result
  | .take key => Takes s key (env.after 2) result

/-! ## Reads -/

theorem refuses_refused (s : Store) (err : CommandError) : Refuses s (refused s err) :=
  ⟨rfl, err, rfl⟩

theorem reads_refused (s : Store) (env : Env) (err : CommandError) : Reads s env (refused s err) :=
  ⟨fun _ _ => Fades.refl _ _, rfl, .inl ⟨err, rfl⟩⟩

variable {env : Env} {s : Store} {α : Type} {key : Bytes}

theorem reads_parsed {arguments : Except CommandError α}
    {run : α → Handled} (h : ∀ a, Reads s env (run a)) : Reads s env (parsed s arguments run) := by
  cases arguments with
  | error err => exact reads_refused s env err
  | ok a => exact h a

theorem reads_answer {result : Store × Except StorageError α}
    {response : α → Value} (hfades : ∀ t, env.DoneBy t → Fades t s.view result.1.view)
    (hlimit : result.1.maxMemory = s.maxMemory) :
    Reads s env (answer result fun a => .plain (response a)) := by
  obtain ⟨s', outcome⟩ := result
  cases outcome with
  | error err => exact ⟨hfades, hlimit, .inl ⟨_, rfl⟩⟩
  | ok a => exact ⟨hfades, hlimit, .inr ⟨_, rfl⟩⟩

theorem reads_readKey {ρ : Type}
    {fn : ValueObject → Except StorageError ρ} {response : Option ρ → Value} :
    Reads s env (answer (s.readKey key (env.after 2) fn) fun a => .plain (response a)) :=
  reads_answer (fun _ ht => (s.readKey_fades key (env.after 2) fn).mono (ht 2))
    (s.maxMemory_readKey key (env.after 2) fn)

theorem reads_getBit {offset : Int} {response : Option Int → Value} :
    Reads s env (answer (s.getBit key offset (env.after 2)) fun a => .plain (response a)) := by
  unfold Store.getBit
  split
  · exact reads_answer (fun _ _ => Fades.refl _ _) rfl
  · exact reads_readKey

theorem reads_pfCount {keys : List Bytes} {response : Bytes → Value} :
    Reads s env (answer (s.pfCount keys (env.after 2)) fun a => .plain (response a)) :=
  reads_answer
    (fun _ ht => (Store.pfMerge_fades keys s _ (env.after 2) (ht.after 2)).1)
    (Store.pfMerge_fades keys s _ (env.after 2) fun i =>
      (Instant.millis_le ((env.after 2).clock i))).2

/-! ## Writes -/

theorem writes_answer {m : Mutation} {op : Store × Except StorageError α} {datum : α → Datum}
    {evicted : α → List Bytes} {reply : α → Reply}
    (hop : s.write key m env = op.map id fun r => r.map fun a => (datum a, evicted a))
    (hreply : ∀ a, (reply a).evicted = evicted a ∧ (reply a).setExpiryMillis = m.deadline) :
    Writes s key m env (answer op reply) := by
  obtain ⟨s', outcome⟩ := op
  unfold Writes Store.mutate
  rw [hop]
  cases outcome with
  | error err => exact ⟨rfl, rfl⟩
  | ok a => exact ⟨rfl, reply a, rfl, hreply a⟩

/-- With arguments to parse, either they are refused or the mutation is made. -/
theorem describes_ofParsed {m : α → Mutation} {arguments : Except CommandError α}
    {run : α → Handled} (h : ∀ a, Writes s key (m a) (env.after 2) (run a)) :
    (StoreEffect.ofParsed key m arguments).Describes s env (parsed s arguments run) := by
  cases arguments with
  | error err => exact refuses_refused s err
  | ok a => exact h a

variable (c : CommandName) (rt : Runtime) (left : Bool) (s : Store) (args : List Bytes) (env : Env)

theorem deletes_handleDel (h : args ≠ []) :
    Deletes s args (env.after 2) (handleDel s args env) := by
  match args with
  | [] => exact absurd rfl h
  | [key] => exact ⟨rfl, _, rfl, rfl, rfl⟩
  | first :: second :: rest => exact ⟨rfl, _, rfl, rfl, rfl⟩

theorem takes_handleBLPop (inline : Bool) (s : Store) (key : Bytes) (env : Env) :
    Takes s key (env.after 2) (handleBLPop inline s [key] env) := by
  unfold Takes handleBLPop
  simp only
  generalize s.pop key true (env.after 2) = popped
  match popped with
  | (s', .error err) => exact ⟨rfl, _, rfl⟩
  | (s', .ok (some value)) => exact ⟨rfl, _, rfl, rfl, rfl⟩
  | (s', .ok none) => exact ⟨rfl, _, rfl⟩

theorem describes_popList : (popEffect left args).Describes s env (popList c left s args env) := by
  match args with
  | [] => exact refuses_refused s _
  | [key] => exact writes_answer rfl fun a => ⟨rfl, rfl⟩
  | [key, count] => exact describes_ofParsed fun n => writes_answer rfl fun a => ⟨rfl, rfl⟩
  | _ :: _ :: _ :: _ => exact refuses_refused s _

theorem describes_handlePush : (pushEffect left args).Describes s env (handlePush c left s args env) := by
  match args with
  | [] => exact refuses_refused s _
  | [_] => exact refuses_refused s _
  | key :: value :: values => exact writes_answer rfl fun a => ⟨rfl, rfl⟩

theorem describes_handleSet :
    (CommandName.set.effect rt args (env.clock 1)).Describes s env (handleSet rt s args env) := by
  match args with
  | [] => exact refuses_refused s _
  | [_] => exact refuses_refused s _
  | key :: value :: options =>
    simp only [CommandName.effect, handleSet]
    cases parseExpiryMillis rt options (env.clock 1) with
    | error err => exact refuses_refused s _
    | ok expiresAt => exact writes_answer rfl fun a => ⟨rfl, rfl⟩

theorem describes_handleSetBit :
    (CommandName.setBit.effect rt args (env.clock 1)).Describes s env (handleSetBit s args env) := by
  match args with
  | [] => exact refuses_refused s _
  | [_] => exact refuses_refused s _
  | [_, _] => exact refuses_refused s _
  | key :: offset :: bit :: _ =>
    simp only [CommandName.effect, handleSetBit, parseSetBit]
    cases parseBitmapOffsetArgument offset with
    | error err => exact refuses_refused s _
    | ok offset =>
      cases parseBitValueArgument bit with
      | error err => exact refuses_refused s _
      | ok bit => exact writes_answer rfl fun a => ⟨rfl, rfl⟩

/-- **Every handler has the effect of its command.** -/
theorem storeHandler_effect {rt : Runtime} {inline : Bool} {c : CommandName}
    {handler : Store → List Bytes → Env → Handled} (hc : storeHandler rt inline c = some handler)
    (s : Store) (args : List Bytes) (env : Env) :
    (c.effect rt args (env.clock 1)).Describes s env (handler s args env) := by
  cases c
  all_goals cases hc
  case set => exact describes_handleSet rt s args env
  case setBit => exact describes_handleSetBit rt s args env
  case pfAdd | hSet =>
    match args with
    | [] => exact refuses_refused s _
    | key :: rest => exact writes_answer rfl fun a => ⟨rfl, rfl⟩
  case del =>
    match args with
    | [] => exact refuses_refused s _
    | key :: keys => exact deletes_handleDel s (key :: keys) env (by simp)
  case incr =>
    match args with
    | [] => exact refuses_refused s _
    | [key] => exact writes_answer rfl fun a => ⟨rfl, rfl⟩
    | _ :: _ :: _ => exact refuses_refused s _
  case lPush | rPush => exact describes_handlePush _ _ s args env
  case lPop | rPop => exact describes_popList _ _ s args env
  case blPop =>
    match args with
    | [] => exact refuses_refused s _
    | [key] => exact takes_handleBLPop inline s key env
    | _ :: _ :: _ => exact refuses_refused s _
  case zAdd | geoAdd =>
    match args with
    | [] => exact refuses_refused s _
    | key :: rest => exact describes_ofParsed fun entries => writes_answer rfl fun a => ⟨rfl, rfl⟩
  case xAdd | hDel | sAdd | sRem =>
    match args with
    | [] => exact refuses_refused s _
    | [_] => exact refuses_refused s _
    | key :: first :: rest => exact writes_answer rfl fun a => ⟨rfl, rfl⟩
  case get | hGet | hGetAll | sIsMember | sMembers =>
    simp only [handleGet, handleHGet, handleHGetAll, handleSIsMember, handleSMembers]
    split
    · exact reads_readKey
    · exact reads_refused s env _
  case getBit =>
    unfold handleGetBit
    split
    · exact reads_parsed fun _ => reads_getBit
    · exact reads_refused s env _
  case bitCount =>
    unfold handleBitCount
    split
    · exact reads_parsed fun _ => reads_readKey
    · exact reads_readKey
    · exact reads_refused s env _
  case pfCount =>
    unfold handlePFCount
    split
    · exact reads_refused s env _
    · exact reads_pfCount
  case lRange | geoDist =>
    simp only [handleLRange, handleGeoDist]
    split
    · exact reads_parsed fun _ => reads_readKey
    · exact reads_refused s env _
  case zRange =>
    unfold handleZRange
    split
    · split
      · exact reads_parsed fun _ => reads_readKey
      · exact reads_refused s env _
    · exact reads_refused s env _
  case geoRadius =>
    unfold handleGeoRadius
    split
    · exact reads_parsed fun _ => reads_parsed fun _ => reads_parsed fun _ => reads_readKey
    · exact reads_refused s env _
  case xRead =>
    unfold handleXRead
    split
    · split
      · exact reads_readKey
      · exact reads_refused s env _
    · exact reads_refused s env _
    · exact reads_refused s env _

end Stash
