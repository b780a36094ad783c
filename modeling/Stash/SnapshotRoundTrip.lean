import Stash.RdbLoader

/-!
# A snapshot is read back

`BuildSnapshot` leaves out the keys whose deadlines have passed and writes the others in the order of
their names; the loader leaves out those whose deadlines have passed when it is their turn.  What is
loaded is what was written, key by key, except for these.
-/

namespace Stash

open DecimalText List

namespace Rdb

/-- `SnapshotStats`. -/
structure SnapshotStats where
  writtenKeys : Nat
  skippedExpiredKeys : Nat

/-- The loop of `BuildSnapshot` counts an entry. -/
def SnapshotStats.count (now : Int) (stats : SnapshotStats) (entry : StringSnapshotEntry) :
    SnapshotStats :=
  if 0 < entry.expiresAt ∧ entry.expiresAt ≤ now then
    { stats with skippedExpiredKeys := stats.skippedExpiredKeys + 1 }
  else { stats with writtenKeys := stats.writtenKeys + 1 }

def SnapshotStats.total (stats : SnapshotStats) : Nat :=
  stats.writtenKeys + stats.skippedExpiredKeys

/-- `BuildSnapshot`, the counts. -/
def snapshotStats (entries : List StringSnapshotEntry) (now : Int) : SnapshotStats :=
  (sortBy StringSnapshotEntry.key entries).foldl (SnapshotStats.count now) ⟨0, 0⟩

variable (entries : List StringSnapshotEntry) (now : Int)

theorem total_foldl_count (entries : List StringSnapshotEntry) (stats : SnapshotStats) :
    (entries.foldl (SnapshotStats.count now) stats).total = stats.total + entries.length := by
  induction entries generalizing stats with
  | nil => rfl
  | cons entry entries ih =>
    rw [foldl_cons, ih, length_cons]
    unfold SnapshotStats.count SnapshotStats.total
    split
    · simp only
      omega
    · simp only
      omega

/-- **Every key is counted once.** -/
theorem snapshotStats_total : (snapshotStats entries now).total = entries.length := by
  rw [snapshotStats, total_foldl_count,
    (perm_sortBy StringSnapshotEntry.key entries).length_eq]
  exact Nat.zero_add _

/-- The entry as the payload has it: a deadline that is not positive is none. -/
def written (e : StringSnapshotEntry) : StringSnapshotEntry :=
  { e with expiresAt := max e.expiresAt 0 }

theorem dropped_written {now : Int} {e : StringSnapshotEntry} :
    Dropped now (written e) ↔ Dropped now e := by
  unfold Dropped written
  simp only
  omega

theorem encodeEntry_written (e : StringSnapshotEntry) :
    encodeEntry now (written e) = encodeEntry now e := by
  by_cases hpos : 0 < e.expiresAt
  · have hsame : written e = e := by
      unfold written
      rw [Int.max_eq_left hpos.le]
    rw [hsame]
  · have hzero : (written e).expiresAt = 0 := Int.max_eq_right (Int.not_lt.mp hpos)
    have hnot : ¬(0 < e.expiresAt ∧ e.expiresAt ≤ now) := fun h => hpos h.1
    simp only [encodeEntry, hzero, if_neg hnot, if_neg hpos, lt_irrefl, false_and, if_false]
    rfl

theorem sortBy_written :
    sortBy StringSnapshotEntry.key (entries.map written) =
      (sortBy StringSnapshotEntry.key entries).map written :=
  (map_insertionSort _ _ written entries fun _ _ _ _ => Iff.rfl).symm

theorem buildSnapshot_written :
    buildSnapshot (entries.map written) now = buildSnapshot entries now := by
  unfold buildSnapshot
  rw [sortBy_written, flatMap_map]
  simp only [map_eq_nil_iff, encodeEntry_written]

/-- The keys of the payload, in its order. -/
def writtenKeys (entries : List StringSnapshotEntry) (now : Int) : List Bytes :=
  ((sortBy StringSnapshotEntry.key entries).filter fun e => ¬Dropped now e).map
    StringSnapshotEntry.key

/-- The entry outlives the load: it has no deadline, or the clock has not reached it at the turn of
the key. -/
def Outlives (entries : List StringSnapshotEntry) (built : Int) (envs : Nat → Env)
    (e : StringSnapshotEntry) : Prop :=
  e.expiresAt ≤ 0 ∨ (envs ((writtenKeys entries built).idxOf e.key)).now 0 < e.expiresAt

instance (entries : List StringSnapshotEntry) (built : Int) (envs : Nat → Env)
    (e : StringSnapshotEntry) : Decidable (Outlives entries built envs e) :=
  inferInstanceAs (Decidable (_ ∨ _))

variable {entries : List StringSnapshotEntry} {built : Int} {envs : Nat → Env}

/-- What was dropped from the payload does not outlive the load. -/
theorem not_dropped_of_outlives (hclock : ∀ i, built ≤ (envs i).now 0) {e : StringSnapshotEntry}
    (h : Outlives entries built envs e) : ¬Dropped built e := by
  rintro ⟨hpos, hpassed⟩
  rcases h with hnone | hlater
  · omega
  · have hreading := hclock ((writtenKeys entries built).idxOf e.key)
    omega

/-- **A snapshot is read back.**  The store holds the entries that outlive the load, with the same
values and deadlines, and nothing else. -/
theorem snapshot_round_trip (hkeys : (entries.map StringSnapshotEntry.key).Nodup)
    (hsize : ∀ e ∈ entries, e.key.length ≤ maxRDBObjectLength ∧
      e.value.length ≤ maxRDBObjectLength ∧ InInt64 e.expiresAt)
    (hclock : ∀ i, built ≤ (envs i).now 0) (hash : Bytes → Fin 256) :
    (∃ l, loadReader envs (buildSnapshot entries built) (.newStore hash) = .ok l ∧
      ∀ key entry, l.store.view key = some entry ↔
        ∃ e ∈ entries, e.key = key ∧ entry = ⟨.string e.value, max e.expiresAt 0⟩ ∧
          Outlives entries built envs e) ∧
      (snapshotStats entries built).writtenKeys +
        (snapshotStats entries built).skippedExpiredKeys = entries.length := by
  refine ⟨?_, snapshotStats_total entries built⟩
  set sorted := sortBy StringSnapshotEntry.key entries with hsorted
  set kept := sorted.filter fun e => ¬Dropped built e with hkept
  have hperm : sorted.Perm entries := perm_sortBy StringSnapshotEntry.key entries
  have hfits : ∀ e ∈ entries.map written, Fits e := by
    intro e he
    obtain ⟨e', he', rfl⟩ := mem_map.mp he
    obtain ⟨hkey, hvalue, -, hmax⟩ := hsize e' he'
    refine ⟨hkey, hvalue, Int.le_max_right _ _, ?_⟩
    change max e'.expiresAt 0 < 2 ^ 63
    omega
  have hfilter : ((sortBy StringSnapshotEntry.key (entries.map written)).filter
      fun e => ¬Dropped built e) = kept.map written := by
    rw [sortBy_written, filter_map]
    refine congrArg (List.map written) (filter_congr fun e _ => ?_)
    exact decide_eq_decide.mpr (not_congr dropped_written)
  have hnames : (kept.map written).map StringSnapshotEntry.key = kept.map StringSnapshotEntry.key := by
    rw [map_map]
    rfl
  have hnodup : (kept.map StringSnapshotEntry.key).Nodup :=
    ((hperm.map _).nodup_iff.mpr hkeys).sublist (filter_sublist.map _)
  obtain ⟨l, hload, -, hstored, hothers⟩ :=
    @foldlM_loadEntry envs (kept.map written) (by rwa [hnames]) ⟨.newStore hash, 0, 0⟩ rfl
  refine ⟨l, ?_, fun key entry => ?_⟩
  · rw [loadReader, ← buildSnapshot_written, load_buildSnapshot _ hfits, hfilter]
    exact hload
  · -- the turn of a key that was written is its place in the payload
    have hturn : ∀ (i : Nat) e, kept[i]? = some e → (writtenKeys entries built).idxOf e.key = i := by
      intro i e he
      have hi : (kept.map StringSnapshotEntry.key)[i]? = some e.key := by
        rw [List.getElem?_map, he]
        rfl
      obtain ⟨hlt, hget⟩ := List.getElem?_eq_some_iff.mp hi
      rw [← hget]
      exact hnodup.idxOf_getElem i hlt
    have hentry : ∀ (i : Nat) e, kept[i]? = some e → l.store.view e.key =
        if Outlives entries built envs e then some (Entry.mk (.string e.value) (max e.expiresAt 0))
        else none := by
      intro i e he
      have hview := hstored i (written e) (by rw [List.getElem?_map, he]; rfl)
      have hiff : Outlives entries built envs e ↔
          ¬Dropped ((envs (0 + 0 + i)).now 0) (written e) := by
        rw [dropped_written, Outlives, hturn i e he, Dropped, Nat.zero_add]
        omega
      change l.store.view e.key = _ at hview
      rw [hview]
      by_cases hout : Outlives entries built envs e
      · rw [if_neg (hiff.mp hout), if_pos hout]
        rfl
      · rw [if_pos (not_not.mp fun hnot => hout (hiff.mpr hnot)), if_neg hout]
        rfl
    constructor
    · intro hview
      by_cases hmem : key ∈ kept.map StringSnapshotEntry.key
      · obtain ⟨e, he, rfl⟩ := mem_map.mp hmem
        obtain ⟨i, hi⟩ := List.getElem?_of_mem he
        rw [hentry i e hi] at hview
        split at hview
        · rename_i hout
          exact ⟨e, hperm.mem_iff.mp (mem_of_mem_filter he), rfl,
            (Option.some.inj hview).symm, hout⟩
        · cases hview
      · rw [hothers key (by rwa [hnames])] at hview
        cases hview
    · rintro ⟨e, he, rfl, rfl, hout⟩
      have hmem : e ∈ kept := mem_filter.mpr
        ⟨hperm.mem_iff.mpr he, decide_eq_true (not_dropped_of_outlives hclock hout)⟩
      obtain ⟨i, hi⟩ := List.getElem?_of_mem hmem
      rw [hentry i e hi, if_pos hout]

/-- A key without a deadline, one whose deadline comes before its turn, and one that was dropped. -/
theorem snapshot_round_trip_three :
    (∃ l, loadReader (fun _ => .frozen (.ofMillis 1000 (by decide)))
        (buildSnapshot [⟨[1], [2], -5⟩, ⟨[3], [], 900⟩, ⟨[4], [], 100⟩] 500) (.newStore fun _ => 0) =
          .ok l ∧
      ∀ key entry, l.store.view key = some entry ↔
        ∃ e ∈ ([⟨[1], [2], -5⟩, ⟨[3], [], 900⟩, ⟨[4], [], 100⟩] : List StringSnapshotEntry),
          e.key = key ∧ entry = ⟨.string e.value, max e.expiresAt 0⟩ ∧
          Outlives [⟨[1], [2], -5⟩, ⟨[3], [], 900⟩, ⟨[4], [], 100⟩] 500
            (fun _ => .frozen (.ofMillis 1000 (by decide))) e) ∧
      (snapshotStats [⟨[1], [2], -5⟩, ⟨[3], [], 900⟩, ⟨[4], [], 100⟩] 500).writtenKeys +
        (snapshotStats [⟨[1], [2], -5⟩, ⟨[3], [], 900⟩, ⟨[4], [], 100⟩] 500).skippedExpiredKeys = 3 :=
  @snapshot_round_trip [⟨[1], [2], -5⟩, ⟨[3], [], 900⟩, ⟨[4], [], 100⟩] 500
    (fun _ => .frozen (.ofMillis 1000 (by decide))) (by decide) (by decide) (fun _ => by decide) fun _ => 0

end Rdb

end Stash
