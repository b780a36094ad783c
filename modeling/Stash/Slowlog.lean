import Mathlib.Data.List.Chain
import Stash.ReplyFrames

/-!
# The slow log

`SlowlogRegistry` keeps the last commands that ran too long in a ring of fixed size.  What it is for
is simpler: a history that grows at one end and is cleared by a reset.  Whatever calls are made, the
ring shows the newest part of that history.
-/

namespace Stash

open List

/-- `SlowlogEntry{}`. -/
def SlowlogEntry.zero : SlowlogEntry :=
  ⟨0, 0, 0, [], []⟩

def defaultSlowlogCapacity : Nat := 128

structure SlowlogRegistry where
  entries : List SlowlogEntry
  start : Nat
  count : Nat
  nextID : Int

namespace SlowlogRegistry

/-- `NewSlowlogRegistry`. -/
def new : SlowlogRegistry :=
  ⟨replicate defaultSlowlogCapacity .zero, 0, 0, 0⟩

def record (r : SlowlogRegistry) (entry : SlowlogEntry) : SlowlogRegistry :=
  if r.entries.length = 0 then r
  else
    let entry := { entry with id := r.nextID }
    if r.count = r.entries.length then
      { entries := r.entries.set r.start entry
        start := (r.start + 1) % r.entries.length
        count := r.count
        nextID := r.nextID + 1 }
    else
      { entries := r.entries.set ((r.start + r.count) % r.entries.length) entry
        start := r.start
        count := r.count + 1
        nextID := r.nextID + 1 }

/-- `Entries`. -/
def entriesUpTo (r : SlowlogRegistry) (limit : Int) : List SlowlogEntry :=
  let count := if 0 ≤ limit ∧ limit < r.count then limit.toNat else r.count
  (range count).map fun i =>
    r.entries.getD ((r.start + r.count - 1 - i + r.entries.length) % r.entries.length) .zero

def len (r : SlowlogRegistry) : Nat :=
  r.count

def reset (r : SlowlogRegistry) : SlowlogRegistry :=
  { r with entries := r.entries.map fun _ => .zero, start := 0, count := 0 }

end SlowlogRegistry

inductive SlowlogCall where
  | record (entry : SlowlogEntry)
  | reset

/-- What the slow log is for: what was recorded since the last reset, newest first, and how many
entries were recorded at all. -/
structure SlowHistory where
  entries : List SlowlogEntry
  recorded : Int

def SlowHistory.call (h : SlowHistory) : SlowlogCall → SlowHistory
  | .record entry => ⟨{ entry with id := h.recorded } :: h.entries, h.recorded + 1⟩
  | .reset => ⟨[], h.recorded⟩

def SlowHistory.run (calls : List SlowlogCall) : SlowHistory :=
  calls.foldl call ⟨[], 0⟩

/-- The last 128 entries, or as many of them as the limit lets pass. -/
def SlowHistory.newest (h : SlowHistory) (limit : Int) : List SlowlogEntry :=
  if limit < 0 then h.entries.take 128 else (h.entries.take 128).take limit.toNat

theorem SlowHistory.newest_eq_take (h : SlowHistory) (limit : Int) :
    ∃ n, h.newest limit = h.entries.take n := by
  unfold newest
  split
  · exact ⟨_, rfl⟩
  · exact ⟨_, take_take⟩

namespace SlowlogRegistry

def call (r : SlowlogRegistry) : SlowlogCall → SlowlogRegistry
  | .record entry => r.record entry
  | .reset => r.reset

def run (calls : List SlowlogCall) : SlowlogRegistry :=
  calls.foldl call new

/-- The ring shows the newest part of a history. -/
structure Shows (r : SlowlogRegistry) (h : SlowHistory) : Prop where
  length : r.entries.length = 128
  start : r.start < 128
  count : r.count = min h.entries.length 128
  nextID : r.nextID = h.recorded
  slot : ∀ i < r.count, r.entries[(r.start + r.count - 1 - i) % 128]? = h.entries[i]?

variable {r : SlowlogRegistry} {h : SlowHistory}

/-- One entry is written to `idx`, where the places are counted from now on. -/
theorem Shows.write (hr : r.Shows h) (entry : SlowlogEntry) {idx start count : Nat}
    (hidx : idx < 128) (hstart : start < 128) (hcount : count = min (h.entries.length + 1) 128)
    (hnewest : (start + count - 1) % 128 = idx)
    (holder : ∀ i < r.count, i + 1 < count → (start + count - 1 - (i + 1)) % 128 ≠ idx ∧
      (start + count - 1 - (i + 1)) % 128 = (r.start + r.count - 1 - i) % 128) :
    SlowlogRegistry.Shows ⟨r.entries.set idx { entry with id := r.nextID }, start, count, r.nextID + 1⟩
      (h.call (.record entry)) where
  length := by simpa using hr.length
  start := hstart
  count := hcount
  nextID := congrArg (· + 1) hr.nextID
  slot := by
    intro i hi
    have hlength := hr.length
    cases i with
    | zero =>
      change (r.entries.set idx _)[(start + count - 1) % 128]? = _
      rw [hnewest, getElem?_set_self (by omega), hr.nextID]
      rfl
    | succ i =>
      have hrcount := hr.count
      have hi' : i < r.count := by simp only at hi; omega
      obtain ⟨hne, hplace⟩ := holder i hi' hi
      change (r.entries.set idx _)[(start + count - 1 - (i + 1)) % 128]? = _
      rw [getElem?_set_ne hne.symm, hplace, hr.slot i hi']
      rfl

theorem Shows.record (hr : r.Shows h) (entry : SlowlogEntry) :
    (r.record entry).Shows (h.call (.record entry)) := by
  have hlength := hr.length
  have hstart := hr.start
  have hcount := hr.count
  unfold SlowlogRegistry.record
  rw [if_neg (by omega), hlength]
  split
  · -- the oldest entry makes room
    exact hr.write entry hr.start (Nat.mod_lt _ (by omega)) (by omega) (by omega) (by omega)
  · exact hr.write entry (Nat.mod_lt _ (by omega)) hr.start (by omega) (by omega) (by omega)

theorem Shows.call (hr : r.Shows h) (c : SlowlogCall) : (r.call c).Shows (h.call c) := by
  cases c with
  | record entry => exact hr.record entry
  | reset =>
    exact ⟨(length_map _).trans hr.length, Nat.zero_lt_succ 127, rfl, hr.nextID,
      fun i hi => (Nat.not_lt_zero i hi).elim⟩

theorem shows_run (calls : List SlowlogCall) : (run calls).Shows (SlowHistory.run calls) := by
  have hall : ∀ {r : SlowlogRegistry} {h : SlowHistory}, r.Shows h →
      (calls.foldl call r).Shows (calls.foldl SlowHistory.call h) := by
    induction calls with
    | nil => exact id
    | cons c calls ih => exact fun hr => ih (hr.call c)
  exact hall ⟨rfl, by decide, rfl, rfl, fun i hi => (Nat.not_lt_zero i hi).elim⟩

theorem Shows.entriesUpTo (hr : r.Shows h) (limit : Int) :
    r.entriesUpTo limit = h.newest limit := by
  have hlength := hr.length
  have hcount := hr.count
  have htaken : ∀ count ≤ r.count, ((range count).map fun i => r.entries.getD
      ((r.start + r.count - 1 - i + r.entries.length) % r.entries.length) .zero) =
        h.entries.take count := by
    intro count hle
    refine ext_getElem? fun i => ?_
    rw [getElem?_map, getElem?_take]
    by_cases hi : i < count
    · rw [if_pos hi, getElem?_range hi, hlength, Option.map_some, Nat.add_mod_right,
        ← hr.slot i (by omega), getD_eq_getElem?_getD,
        getElem?_eq_getElem (by rw [hlength]; exact Nat.mod_lt _ (by omega))]
      rfl
    · rw [if_neg hi, getElem?_eq_none (by simpa using hi)]
      rfl
  unfold SlowlogRegistry.entriesUpTo
  simp only
  rw [htaken _ (by split <;> omega)]
  unfold SlowHistory.newest
  split <;> split <;> simp only [take_take, take_eq_take_iff] <;> omega

end SlowlogRegistry

/-! ## Numbers -/

/-- The entries since a moment when `lo` had been recorded are numbered in order. -/
structure SlowHistory.Numbered (lo : Int) (h : SlowHistory) : Prop where
  chain : h.entries.IsChain fun e e' => e.id = e'.id + 1
  newest : ∀ e ∈ h.entries.head?, h.recorded = e.id + 1
  bounds : ∀ e ∈ h.entries, lo ≤ e.id ∧ e.id < h.recorded
  from_le : lo ≤ h.recorded

theorem SlowHistory.Numbered.call {lo : Int} {h : SlowHistory} (hn : h.Numbered lo)
    (c : SlowlogCall) : (h.call c).Numbered lo := by
  cases c with
  | record entry =>
    refine ⟨isChain_cons.mpr ⟨hn.newest, hn.chain⟩, ?_, ?_, Int.le_add_one hn.from_le⟩
    · rintro e ⟨⟩
      rfl
    · intro e he
      rcases mem_cons.mp he with rfl | he
      · exact ⟨hn.from_le, Int.lt_succ _⟩
      · exact ⟨(hn.bounds e he).1, Int.lt_add_one_of_le (hn.bounds e he).2.le⟩
  | reset => exact ⟨.nil, fun e he => (by cases he), fun e he => (by cases he), hn.from_le⟩

theorem SlowHistory.numbered_foldl {lo : Int} (calls : List SlowlogCall) :
    ∀ {h : SlowHistory}, h.Numbered lo → (calls.foldl call h).Numbered lo := by
  induction calls with
  | nil => exact id
  | cons c calls ih => exact fun hn => ih (hn.call c)

theorem SlowHistory.numbered_empty (n : Int) : Numbered n ⟨[], n⟩ :=
  ⟨.nil, by simp, by simp, le_refl n⟩

/-- **The slow log is the newest part of the history.**  Whatever was called, `Entries` returns the
last entries since the last reset, newest first, up to the capacity and the limit; they are numbered
one by one; and no number comes back after a reset. -/
theorem slowlog_history (calls : List SlowlogCall) (limit : Int) :
    (SlowlogRegistry.run calls).entriesUpTo limit = (SlowHistory.run calls).newest limit ∧
    (SlowlogRegistry.run calls).len = min (SlowHistory.run calls).entries.length 128 ∧
    (((SlowlogRegistry.run calls).entriesUpTo limit).IsChain fun e e' => e.id = e'.id + 1) ∧
    ∀ later limit', ∀ e ∈ (SlowlogRegistry.run calls).entriesUpTo limit,
      ∀ e' ∈ (SlowlogRegistry.run (calls ++ .reset :: later)).entriesUpTo limit', e.id < e'.id := by
  have hnumbered := SlowHistory.numbered_foldl calls (SlowHistory.numbered_empty 0)
  have hshown : ∀ calls limit, (SlowlogRegistry.run calls).entriesUpTo limit =
      (SlowHistory.run calls).newest limit := fun calls limit =>
    (SlowlogRegistry.shows_run calls).entriesUpTo limit
  refine ⟨hshown calls limit, (SlowlogRegistry.shows_run calls).count, ?_, ?_⟩
  · obtain ⟨n, hn⟩ := (SlowHistory.run calls).newest_eq_take limit
    rw [hshown, hn]
    exact hnumbered.chain.take n
  · -- the entries after the reset are numbered from what had been recorded by then
    intro later limit' e he e' he'
    rw [hshown] at he he'
    obtain ⟨n, hn⟩ := (SlowHistory.run calls).newest_eq_take limit
    obtain ⟨n', hn'⟩ := (SlowHistory.run (calls ++ .reset :: later)).newest_eq_take limit'
    rw [hn] at he
    rw [hn', SlowHistory.run, foldl_append] at he'
    have hbefore := hnumbered.bounds e (mem_of_mem_take he)
    have hafter := (SlowHistory.numbered_foldl later
      (SlowHistory.numbered_empty (SlowHistory.run calls).recorded)).bounds e' (mem_of_mem_take he')
    exact hbefore.2.trans_le hafter.1

end Stash
