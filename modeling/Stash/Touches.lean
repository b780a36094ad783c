import Stash.CommandEffects

/-!
# The watchers that are told

A command that succeeds names the keys whose watchers are told: its own key if it wrote to it, and
the keys it evicted.  Nothing else that was live is changed (`storeHandler_tells`).  Pops, removals
and DEL touch a key only when they took something from it; when they did not, the key is as it was.
-/

namespace Stash

open DecimalText GoMap Handlers List Function Store HashRep

/-! ## Keys that are spared -/

/-- The key is as it was, unless its time was over. -/
def Keyspace.Spares (now : Int) (key : Bytes) (before after : Keyspace) : Prop :=
  after key = before key ∨
    after key = none ∧ ∃ e, before key = some e ∧ isExpired e.expiresAt now = true

namespace Keyspace.Spares

variable {now later t : Int} {key : Bytes} {a b c : Keyspace}

section

variable (h : Spares now key a b)
include h

theorem mono (hle : now ≤ later) : Spares later key a b := by
  rcases h with hb | ⟨hb, e, he, hexpired⟩
  · exact .inl hb
  · exact .inr ⟨hb, e, he, isExpired_mono hle hexpired⟩

theorem trans (h' : Spares now key b c) : Spares now key a c := by
  rcases h' with hc | ⟨hc, e, he, hexpired⟩
  · unfold Spares
    rw [hc]
    exact h
  · rcases h with hb | ⟨hb, -⟩
    · exact .inr ⟨hc, e, hb ▸ he, hexpired⟩
    · rw [hb] at he
      cases he

/-- What is live is the same. -/
theorem liveAt (hle : now ≤ t) : b.liveAt t key = a.liveAt t key := by
  unfold Keyspace.liveAt liveEntry
  rcases h with hb | ⟨hb, e, he, hexpired⟩
  · rw [hb]
  · rw [hb, he, Option.filter_some, isExpired_mono hle hexpired]
    rfl

end

end Keyspace.Spares

open Keyspace (Spares)

namespace Store

variable {k : Bytes} {evicted : List Bytes}

theorem spares_of_lookup {s s' : Store} (now : Int) (h : s'.lookup k = s.lookup k) :
    Spares now k s.view s'.view :=
  .inl (congrArg (Option.map ValueObject.entry) h)

theorem spares_of_live {s s' : Store} {now : Int}
    (h : s'.lookup k = liveValue (s.lookup k) now) : Spares now k s.view s'.view := by
  unfold Spares view
  rw [h]
  cases s.lookup k with
  | none => exact .inl rfl
  | some value =>
    rw [liveValue_some]
    split
    · exact .inr ⟨rfl, value.entry, rfl, ‹_›⟩
    · exact .inl rfl

/-! ## Making room -/

/-- **Eviction removes no key that it does not report.** -/
theorem evictLoop_kept (protectedKeys : List Bytes) (targetUsed : Int) (rounds : Nat) (s : Store)
    (env : Env) (hk : k ∉ (evictLoop protectedKeys targetUsed rounds s env []).2) :
    (evictLoop protectedKeys targetUsed rounds s env []).1.lookup k = s.lookup k := by
  obtain ⟨keys, hkeys, h⟩ := evictLoop_evictions protectedKeys targetUsed rounds s env []
  rw [hkeys, nil_append] at hk
  exact h.kept hk

theorem ensureMemory_spares (s : Store) (delta : Int) (protectedKeys : List Bytes)
    (env : Env) (h : (s.ensureMemoryAvailableLocked delta protectedKeys env).2 = .ok evicted)
    (hk : k ∉ evicted) :
    Spares (env.now 0) k s.view (s.ensureMemoryAvailableLocked delta protectedKeys env).1.view := by
  have hmeasured : Spares (env.now 0) k s.view
      (s.recalculateUsedMemoryLocked (env.now 0) (env.order 0)).view :=
    spares_of_live (lookup_recalculate s (env.now 0) (env.order 0) k)
  unfold ensureMemoryAvailableLocked evictUntilMemoryAtOrBelowLocked at h ⊢
  simp only at h ⊢
  split at h
  · rename_i hoff
    rw [if_pos hoff]
    exact .inl rfl
  · rename_i hoff
    rw [if_neg hoff]
    split at h
    · cases h
    · rename_i htarget
      rw [if_neg htarget]
      split at h
      · rename_i hroom
        rw [if_pos hroom]
        exact hmeasured
      · rename_i hroom
        rw [if_neg hroom]
        split at h
        · cases h
        · rename_i hevictable
          rw [if_neg hevictable]
          split at h
          · rename_i hdone
            rw [if_pos hdone]
            cases h
            exact hmeasured.trans (spares_of_lookup _ (evictLoop_kept _ _ _ _ _ hk))
          · cases h

theorem commit_spares (s : Store) (key : Bytes) (write : KeyWrite) (value : ValueObject) (env : Env)
    (h : (s.commit key write value env).2 = .ok evicted) (hkey : k ≠ key) (hk : k ∉ evicted) :
    Spares (env.now 0) k s.view (s.commit key write value env).1.view := by
  unfold commit at h ⊢
  split at h
  · rename_i haccounting
    rw [if_pos haccounting]
    simp only at h ⊢
    split at h
    · cases h
    · rename_i s' evicted' hensure
      cases h
      have hspares := s.ensureMemory_spares
        (approximateValueObjectSize key value - sizeOfCurrent key write.current) [key] env
        (congrArg Prod.snd hensure) hk
      rw [hensure] at hspares
      refine hspares.trans (spares_of_lookup _ ?_)
      rw [lookup_addUsed, lookup_setKey, if_neg hkey]
  · rename_i haccounting
    rw [if_neg haccounting]
    refine spares_of_lookup _ ?_
    rw [lookup_setKey, if_neg hkey]

/-- A write that succeeds spares every key but its own and those it evicted. -/
theorem writeKey_spares {ρ : Type} (s : Store) (key : Bytes) (env : Env)
    (fn : KeyWrite → WriteAction ρ) {result : ρ}
    (h : (s.writeKey key env fn).2 = .ok (result, evicted)) (hkey : k ≠ key)
    (hk : k ∉ evicted) : Spares (env.now 2) k s.view (s.writeKey key env fn).1.view := by
  have hprepared : (s.prepareExistingValueLocked key (env.clock 0).millis).1.lookup k =
      s.lookup k := by
    rw [lookup_prepare, if_neg hkey]
  unfold writeKey at h ⊢
  simp only at h ⊢
  generalize s.prepareExistingValueLocked key (env.clock 0).millis = prepared at hprepared h ⊢
  have hfirst : Spares (env.now 2) k s.view prepared.1.view := spares_of_lookup _ hprepared
  refine hfirst.trans (Spares.trans ?_ (spares_of_lookup _ (lookup_publish_if _ _ _)))
  generalize fn ⟨prepared.2, env.clock 0, s.maxMemoryEnabled⟩ = action at h ⊢
  cases action with
  | fail err => cases h
  | inPlace value result =>
    refine spares_of_lookup _ ?_
    rw [perform, lookup_put, if_neg hkey]
  | commit value result =>
    unfold perform at h ⊢
    simp only at h ⊢
    split at h
    · cases h
    · rename_i s' evicted' hcommit
      obtain ⟨-, rfl⟩ := Prod.mk.inj (Except.ok.inj h)
      have hspares := prepared.1.commit_spares key
        ⟨prepared.2, env.clock 0, s.maxMemoryEnabled⟩ value (env.after 2)
        (congrArg Prod.snd hcommit) hkey hk
      rw [hcommit] at hspares
      exact hspares

/-- **An operation that succeeds spares every key but its own and those it evicted.** -/
theorem mutate_spares (s : Store) (key : Bytes) (m : Mutation) (env : Env)
    (h : (s.mutate key m env).2 = .ok evicted) (hkey : k ≠ key) (hk : k ∉ evicted) :
    Spares (env.now 2) k s.view (s.mutate key m env).1.view := by
  have hcarried := mutate_carried s key m env
  generalize s.mutate key m env = result at hcarried h
  cases hcarried with
  | write fn _ =>
    rw [Prod.map_snd] at h
    obtain ⟨r, hwrite, rfl⟩ := map_ok h
    exact s.writeKey_spares key env fn hwrite hkey hk
  | alone acts _ =>
    obtain ⟨e, -, -, hview⟩ := acts.entry h
    refine .inl ?_
    rw [hview, update_of_ne hkey]

/-! ## Taking nothing -/

/-- **Taking nothing leaves the key as it was.** -/
theorem shrinkKey_spares {ρ : Type} (s : Store) (key : Bytes) (env : Env) (stamp : Int) (absent : ρ)
    {fn : Payload → Except StorageError (Option (Payload × ρ))} {Nothing : ρ → Prop}
    (hnone : ∀ payload, payload.Sound → fn payload ≠ .ok none)
    (hsame : ∀ payload left a, payload.Sound → fn payload = .ok (some (left, a)) → Nothing a →
      left.Sound ∧ left.logical = payload.logical)
    {a : ρ} (h : (s.shrinkKey key env stamp absent fn).2 = .ok a) (ha : Nothing a) :
    Spares (env.now 0) key s.view (s.shrinkKey key env stamp absent fn).1.view := by
  unfold shrinkKey at h ⊢
  cases hlookup : s.lookup key with
  | none => exact .inl rfl
  | some value =>
    rw [hlookup] at h
    simp only at h ⊢
    split at h
    · rename_i hexpired
      rw [if_pos hexpired]
      refine spares_of_live ?_
      rw [lookup_deleteKey, if_pos rfl, hlookup, liveValue_some, if_pos hexpired]
    · rename_i hexpired
      rw [if_neg hexpired]
      split at h
      · cases h
      · rename_i hfn
        exact absurd hfn (hnone value.payload value.sound)
      · rename_i left result hfn
        have hresult : result = a := by
          split at h <;> exact Except.ok.inj h
        obtain ⟨hsound, hlogical⟩ := hsame value.payload left result value.sound hfn (hresult ▸ ha)
        simp only [dif_pos hsound]
        have hentry : (⟨left, value.expiresAt, stamp, hsound⟩ : ValueObject).entry = value.entry := by
          unfold ValueObject.entry
          rw [hlogical]
        refine .inl ?_
        unfold view
        rw [hlookup]
        split
        · rw [lookup_addUsed, lookup_put, if_pos rfl, Option.map_some, hentry, Option.map_some]
        · rw [lookup_put, if_pos rfl, Option.map_some, hentry, Option.map_some]

end Store

/-- A fold that counts what it finds, and finds nothing, leaves what can be found alone. -/
theorem foldl_count_none {σ ι : Type} {step : σ → ι → σ} {present : σ → ι → Bool}
    (habsent : ∀ s x, present s x = false → present (step s x) = present s) {xs : List ι} {s : σ}
    {n : Nat}
    (h : (xs.foldl (fun acc x =>
      (step acc.1 x, if present acc.1 x then acc.2 + 1 else acc.2)) (s, n)).2 ≤ n) :
    ∀ x ∈ xs, present s x = false := by
  have hmono : ∀ (xs : List ι) (acc : σ × Nat), acc.2 ≤ (xs.foldl (fun acc x =>
      (step acc.1 x, if present acc.1 x then acc.2 + 1 else acc.2)) acc).2 := by
    intro xs
    induction xs with
    | nil => exact fun acc => le_refl _
    | cons x xs ih =>
      intro acc
      refine le_trans ?_ (ih _)
      simp only
      split <;> omega
  induction xs generalizing s with
  | nil => exact fun _ h => (nomatch h)
  | cons x xs ih =>
    rw [foldl_cons] at h
    have hx : present s x = false := by
      by_contra hpresent
      have hcount := hmono xs (step s x, if present s x then n + 1 else n)
      rw [if_pos (Bool.not_eq_false _ ▸ hpresent)] at hcount h
      simp only at hcount h
      omega
    simp only [hx, Bool.false_eq_true, if_false] at h
    intro y hy
    rcases mem_cons.mp hy with rfl | hy
    · exact hx
    · rw [← habsent s x hx]
      exact ih h y hy

theorem unassign_eq_self {f : Bytes → Option Bytes} {keys : List Bytes}
    (h : ∀ key ∈ keys, f key = none) : unassign f keys = f := by
  induction keys with
  | nil => rfl
  | cons key keys ih =>
    have hfirst : Function.update f key none = f := by
      rw [← h key mem_cons_self]
      exact update_eq_self key f
    unfold unassign at ih ⊢
    rw [foldl_cons, hfirst]
    exact ih fun k hk => h k (mem_cons_of_mem _ hk)

theorem isSome_erase_absent {β : Type} (m : Map Bytes β) (key : Bytes)
    (habsent : (m.lookup key).isSome = false) :
    (fun k => ((m.erase key).lookup k).isSome) = fun k => (m.lookup k).isSome := by
  funext k
  by_cases hk : k = key
  · rw [hk, AList.lookup_erase]
    exact habsent.symm
  · rw [AList.lookup_erase_ne hk]

/-- HDEL that removes no field. -/
theorem HashRep.get_del_none {rep : HashRep} {names : List Bytes} (h : (rep.del names).2 = 0) :
    (rep.del names).1.get = rep.get := by
  rw [get_del]
  refine unassign_eq_self fun name hname => ?_
  rw [← Option.isSome_eq_false_iff.trans Option.isNone_iff_eq_none]
  cases rep with
  | general fields =>
    exact @foldl_count_none _ _ (fun (m : Map Bytes Bytes) field => m.erase field)
      (fun m field => (m.lookup field).isSome) isSome_erase_absent names fields 0 (le_of_eq h) name
      hname
  | compact hash =>
    refine @foldl_count_none _ _ CompactHash.del (fun hash field => (hash.get field).isSome)
      (fun hash field habsent => ?_) names hash 0 (le_of_eq h) name hname
    funext k
    rw [CompactHash.get_del]
    by_cases hk : k = field
    · rw [hk, update_self]
      exact habsent.symm
    · rw [update_of_ne hk]

/-- SREM that removes no member. -/
theorem SetRep.contains_remove_none {rep : SetRep} {members : List Bytes}
    (h : (rep.remove members).2 = 0) : (rep.remove members).1.contains = rep.contains := by
  have habsent : ∀ member ∈ members, rep.contains member = false := by
    intro member hmember
    cases rep with
    | general set =>
      exact @foldl_count_none _ _ (fun (m : Map Bytes Unit) member => m.erase member)
        (fun m member => (m.lookup member).isSome) isSome_erase_absent members set 0 (le_of_eq h)
        member hmember
    | compact set =>
      refine @foldl_count_none _ _ IntSet.remove IntSet.contains (fun set member habsent => ?_)
        members set 0 (le_of_eq h) member hmember
      funext k
      rw [Bool.eq_iff_iff, IntSet.contains_iff, IntSet.contains_iff, IntSet.mem_members_remove]
      refine ⟨fun hk => hk.1, fun hk => ⟨hk, ?_⟩⟩
      rintro rfl
      rw [IntSet.contains_iff.mpr hk] at habsent
      cases habsent
  rw [SetRep.contains_remove]
  funext member
  by_cases hmember : member ∈ members
  · rw [habsent member hmember]
    rfl
  · rw [decide_eq_false hmember]
    exact Bool.and_true _

namespace Store

variable {key : Bytes} {env : Env} {s : Store}

theorem pop_spares {left : Bool} (h : (s.pop key left env).2 = .ok none) :
    Spares (env.now 0) key s.view (s.pop key left env).1.view := by
  refine @shrinkKey_spares _ s key env _ none _ (fun a => a = none) (fun payload hsound hfn => ?_)
    (fun payload rest a hsound hfn ha => ?_) none h rfl
  · cases payload with
    | list items =>
      cases items with
      | nil => exact hsound rfl
      | cons item items => cases left <;> cases hfn
    | _ => cases hfn
  · cases payload with
    | list items =>
      cases items with
      | nil => exact absurd rfl hsound
      | cons item items =>
        subst ha
        cases left
        · simp [popPayload] at hfn
        · cases hfn
    | _ => cases hfn

theorem popN_spares {left : Bool} {count : Int} {values : Option (List Bytes)}
    (h : (s.popN key left count env).2 = .ok values) (hnothing : count ≤ 0 ∨ values.getD [] = []) :
    Spares (env.now 0) key s.view (s.popN key left count env).1.view := by
  unfold popN at h ⊢
  split at h
  · cases h
  · rename_i hcount
    rw [if_neg hcount]
    refine @shrinkKey_spares _ s key env _ none _ (fun a => count ≤ 0 ∨ a.getD [] = [])
      (fun payload hsound hfn => ?_) (fun payload rest a hsound hfn ha => ?_) values h hnothing
    · cases payload with
      | list items =>
        cases items with
        | nil => exact hsound rfl
        | cons item items => cases left <;> cases hfn
      | _ => cases hfn
    · cases payload with
      | list items =>
        cases items with
        | nil => exact absurd rfl hsound
        | cons item items =>
          -- something would have been taken unless the count is zero
          have hzero : count.toNat = 0 := by
            rcases ha with ha | ha
            · omega
            · cases left
              · cases hfn
                simp only [Option.getD_some, reverse_eq_nil_iff, drop_eq_nil_iff,
                  length_cons] at ha
                omega
              · cases hfn
                simpa using ha
          rw [hzero] at hfn
          cases left <;> cases hfn <;> exact ⟨by simp [Payload.Sound], by simp [Payload.logical]⟩
      | _ => cases hfn

theorem hDel_spares {fields : List Bytes} (h : (s.hDel key fields env).2 = .ok 0) :
    Spares (env.now 0) key s.view (s.hDel key fields env).1.view := by
  unfold hDel at h ⊢
  split at h
  · cases h
  · rename_i hfields
    rw [if_neg hfields]
    refine @shrinkKey_spares _ s key env _ 0 _ (fun a => a = 0) (fun payload hsound hfn => ?_)
      (fun payload rest a hsound hfn ha => ?_) 0 h rfl
    · cases payload <;> cases hfn
    · cases payload with
      | hash rep =>
        cases hfn
        have hsame := get_del_none ha
        refine ⟨fun hempty => hsound ?_, congrArg Logical.hash hsame⟩
        rw [len_eq_zero_iff] at hempty ⊢
        rw [← hsame]
        exact hempty
      | _ => cases hfn

theorem sRem_spares {members : List Bytes} (h : (s.sRem key members env).2 = .ok 0) :
    Spares (env.now 0) key s.view (s.sRem key members env).1.view := by
  unfold sRem at h ⊢
  split at h
  · cases h
  · rename_i hmembers
    rw [if_neg hmembers]
    refine @shrinkKey_spares _ s key env _ 0 _ (fun a => a = 0) (fun payload hsound hfn => ?_)
      (fun payload rest a hsound hfn ha => ?_) 0 h rfl
    · cases payload <;> cases hfn
    · cases payload with
      | set rep =>
        cases hfn
        have hsame := SetRep.contains_remove_none ha
        refine ⟨fun hempty => hsound ?_, congrArg Logical.set hsame⟩
        rw [SetRep.len_eq_zero_iff] at hempty ⊢
        rw [← hsame]
        exact hempty
      | _ => cases hfn

theorem delete_spares (h : (s.delete key env).2 = false) :
    Spares (env.now 0) key s.view (s.delete key env).1.view := by
  unfold delete at h ⊢
  cases hlookup : s.lookup key with
  | none => exact .inl rfl
  | some value =>
    rw [hlookup] at h
    have hexpired : isExpired value.expiresAt (env.now 0) = true := by simpa using h
    refine spares_of_live ?_
    rw [lookup_deleteKey, if_pos rfl, hlookup, liveValue_some, if_pos hexpired]

/-- The loop of `DeleteMany` reports every key that was live. -/
theorem deleteLoop_spares (now : Int) (keys : List Bytes) (s : Store) {k : Bytes}
    (hk : k ∉ (deleteLoop now s keys []).2) :
    Spares now k s.view (deleteLoop now s keys []).1.view := by
  obtain ⟨more, hmore, -, hmem⟩ := deleteLoop_removed now keys s []
  rw [hmore, nil_append, hmem, not_and] at hk
  have hlookup := (deleteLoop_spec now keys s []).1 k
  by_cases hlisted : k ∈ keys
  · refine spares_of_live ?_
    rw [hlookup, if_pos hlisted]
    exact (Option.not_isSome_iff_eq_none.mp (hk hlisted)).symm
  · exact spares_of_lookup _ (hlookup.trans (if_neg hlisted))

end Store

/-! ## What the handlers report -/

/-- Every key that the command changed is reported, as touched or as evicted. -/
def Tells (s : Store) (env : Env) (result : Handled) : Prop :=
  ∀ reply, result.2 = .ok reply → ∀ t, env.DoneBy t → ∀ k, k ∉ reply.touched → k ∉ reply.evicted →
    Spares t k s.view result.1.view

variable (c : CommandName) (left : Bool) (s : Store) (args : List Bytes) (env : Env)

theorem tells_refused (err : CommandError) : Tells s env (refused s err) :=
  fun _ h => by cases h

theorem tells_parsed {α : Type} {s : Store} {env : Env} {arguments : Except CommandError α}
    {run : α → Handled} (h : ∀ a, Tells s env (run a)) : Tells s env (parsed s arguments run) := by
  cases arguments with
  | error err => exact tells_refused s env err
  | ok a => exact h a

theorem Reads.tells {s : Store} {env : Env} {result : Handled} (h : Reads s env result) :
    Tells s env result :=
  fun _ _ t ht k _ _ => h.fades t ht k

/-- A mutation reports its key if it changed it. -/
theorem tells_answer {α : Type} {s : Store} {key : Bytes} {m : Mutation} {env : Env}
    {op : Store × Except StorageError α} {evicted : α → List Bytes} {reply : α → Reply}
    {datum : α → Datum}
    (hop : s.write key m (env.after 2) = op.map id fun r => r.map fun a => (datum a, evicted a))
    (hevicted : ∀ a, (reply a).evicted = evicted a)
    (hkey : ∀ a, op.2 = .ok a →
      key ∈ (reply a).touched ∨ Spares ((env.after 2).now 0) key s.view op.1.view) :
    Tells s env (answer op reply) := by
  obtain ⟨s', outcome⟩ := op
  intro r hr t ht k htouched hgone
  cases outcome with
  | error err => cases hr
  | ok a =>
    cases hr
    by_cases hk : k = key
    · subst hk
      exact ((hkey a rfl).resolve_left htouched).mono (ht 2)
    · have hmutate : s.mutate key m (env.after 2) = (s', .ok (evicted a)) := by
        rw [mutate, hop]
        rfl
      have hspares := s.mutate_spares key m (env.after 2) (congrArg Prod.snd hmutate) hk
        (by rw [← hevicted]; exact hgone)
      rw [hmutate] at hspares
      exact hspares.mono (ht 4)

theorem tells_written {α : Type} {s : Store} {key : Bytes} {m : Mutation} {env : Env}
    {op : Store × Except StorageError (α × List Bytes)} {response : α → Value} {datum : α → Datum}
    (hop : s.write key m (env.after 2) = wrote datum op) :
    Tells s env (answer op (written key response)) :=
  tells_answer hop (fun _ => rfl) fun _ _ => .inl mem_cons_self

/-- A removal that touches its key when something was taken. -/
theorem tells_taken {α : Type} {s : Store} {key : Bytes} {m : Mutation} {env : Env}
    {op : Store × Except StorageError α} {changed : α → Bool} {response : α → Value}
    {datum : α → Datum} (hop : s.write key m (env.after 2) = told datum op)
    (hkept : ∀ a, op.2 = .ok a → changed a = false →
      Spares ((env.after 2).now 0) key s.view op.1.view) :
    Tells s env (answer op fun a => taken key (changed a) (response a)) := by
  refine tells_answer hop (fun _ => rfl) fun a ha => ?_
  cases hchanged : changed a with
  | false => exact .inr (hkept a ha hchanged)
  | true => exact .inl (by simp [taken])

theorem tells_handlePush : Tells s env (handlePush c left s args env) := by
  match args with
  | [] => exact tells_refused s env _
  | [_] => exact tells_refused s env _
  | key :: value :: values =>
    exact @tells_written _ s key (.push left (value :: values)) env _ _ _ rfl

theorem tells_popList : Tells s env (popList c left s args env) := by
  match args with
  | [] => exact tells_refused s env _
  | [key] =>
    refine @tells_taken _ s key (.pop left) env _ _ _ _ rfl fun a ha hnone => ?_
    rw [Option.isSome_eq_false_iff, Option.isNone_iff_eq_none] at hnone
    subst hnone
    exact pop_spares ha
  | [key, count] =>
    refine tells_parsed fun count => ?_
    refine @tells_taken _ s key (.popN left count) env _ _ _ _ rfl fun a ha hnone => ?_
    refine popN_spares ha ?_
    rcases Bool.and_eq_false_iff.mp hnone with h | h
    · exact .inl (not_lt.mp (of_decide_eq_false h))
    · exact .inr (by simpa using h)
  | _ :: _ :: _ :: _ => exact tells_refused s env _

theorem tells_handleDel : Tells s env (handleDel s args env) := by
  match args with
  | [] => exact tells_refused s env _
  | [key] =>
    intro reply hreply t ht k htouched _
    cases hreply
    by_cases hk : k = key
    · subst hk
      refine (delete_spares ?_).mono (ht 2)
      by_contra hremoved
      refine htouched ?_
      change k ∈ if (s.delete k (env.after 2)).2 = true then [k] else []
      rw [if_pos (Bool.not_eq_false _ ▸ hremoved)]
      exact mem_singleton_self k
    · refine spares_of_lookup _ ?_
      exact ((s.delete_spec key (env.after 2)).1 k).trans (if_neg hk)
  | first :: second :: rest =>
    intro reply hreply t ht k htouched _
    cases hreply
    exact (deleteLoop_spares _ _ s htouched).mono (ht 2)

theorem tells_handleBLPop (inline : Bool) (s : Store) (args : List Bytes) (env : Env) :
    Tells s env (handleBLPop inline s args env) := by
  match args with
  | [] => exact tells_refused s env _
  | _ :: _ :: _ => exact tells_refused s env _
  | [key] =>
    intro reply hreply t ht k htouched _
    unfold handleBLPop at hreply ⊢
    simp only at hreply ⊢
    cases hpop : s.pop key true (env.after 2) with
    | mk s' outcome =>
      rw [hpop] at hreply
      match outcome, hpop with
      | .error err, _ => cases hreply
      | .ok none, _ => cases hreply
      | .ok (some value), hpop =>
        cases hreply
        have hk : k ≠ key := fun h => htouched (by simp [taken, h])
        have hmutate : (s.mutate key (.pop true) (env.after 2)).2 = .ok [] := by
          simp only [mutate, write, hpop]
          rfl
        have hspares := s.mutate_spares key (.pop true) (env.after 2) hmutate hk not_mem_nil
        rw [← pop_eq_mutate, hpop] at hspares
        exact hspares.mono (ht 4)

/-- **Every key that a command changes is reported to its watchers.** -/
theorem storeHandler_tells {rt : Runtime} {inline : Bool} {c : CommandName}
    {handler : Store → List Bytes → Env → Handled} (hc : storeHandler rt inline c = some handler)
    (s : Store) (args : List Bytes) (env : Env) : Tells s env (handler s args env) := by
  have heffect := storeHandler_effect hc s args env
  cases c
  all_goals cases hc
  case set =>
    match args with
    | [] => exact tells_refused s env _
    | [_] => exact tells_refused s env _
    | key :: value :: options =>
      unfold handleSet
      simp only
      split
      · exact tells_refused s env _
      · exact @tells_answer _ s key (.set value _) env _ _ _ _ rfl (fun _ => rfl)
          fun _ _ => .inl mem_cons_self
  case setBit =>
    unfold handleSetBit
    split
    · exact tells_parsed fun offset => tells_parsed fun bit =>
        @tells_written _ s _ (.setBit offset bit) env _ _ _ rfl
    · exact tells_refused s env _
  case pfAdd =>
    unfold handlePFAdd
    split
    · exact @tells_written _ s _ (.pfAdd _) env _ _ _ rfl
    · exact tells_refused s env _
  case del => exact tells_handleDel s args env
  case incr =>
    unfold handleIncr
    split
    · exact @tells_written _ s _ .increment env _ _ _ rfl
    · exact tells_refused s env _
  case lPush | rPush => exact tells_handlePush _ _ s args env
  case lPop | rPop => exact tells_popList _ _ s args env
  case blPop => exact tells_handleBLPop inline s args env
  case zAdd | geoAdd =>
    simp only [handleZAdd, handleGeoAdd]
    split
    · exact tells_parsed fun entries => @tells_written _ s _ (.zAdd entries) env _ _ _ rfl
    · exact tells_refused s env _
  case xAdd =>
    unfold handleXAdd
    split
    · exact @tells_written _ s _ (.xAdd _ _) env _ _ _ rfl
    · exact tells_refused s env _
  case hSet =>
    unfold handleHSet
    split
    · exact @tells_written _ s _ (.hSet _) env _ _ _ rfl
    · exact tells_refused s env _
  case hDel =>
    unfold handleHDel
    split
    · refine @tells_taken _ s _ (.hDel (_ :: _)) env _ _ _ _ rfl fun removed ha hnone => ?_
      obtain rfl : removed = 0 := Nat.eq_zero_of_not_pos (of_decide_eq_false hnone)
      exact hDel_spares ha
    · exact tells_refused s env _
  case sAdd =>
    unfold handleSAdd
    split
    · exact @tells_written _ s _ (.sAdd (_ :: _)) env _ _ _ rfl
    · exact tells_refused s env _
  case sRem =>
    unfold handleSRem
    split
    · refine @tells_taken _ s _ (.sRem (_ :: _)) env _ _ _ _ rfl fun removed ha hnone => ?_
      obtain rfl : removed = 0 := Nat.eq_zero_of_not_pos (of_decide_eq_false hnone)
      exact sRem_spares ha
    · exact tells_refused s env _
  all_goals exact Reads.tells heffect

end Stash
