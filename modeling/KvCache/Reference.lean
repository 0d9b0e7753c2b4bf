import Mathlib.Data.Finset.Sort
import Mathlib.Data.Set.Card
import KvCache.MachineRuns
import KvCache.RamMode

/-!
# The reference machine

What the state machine is for, without layers of storage: users with their
password hashes, and for each user one unbounded map from keys to a value
and an expiry time. Nothing is ever evicted and nothing is loaded, so reads
change nothing. Sessions are as in the code.

Counting the expired keys and listing the live ones are stated over sets;
the maps that occur are finite, and the database makes the same numbers and
lists from its rows.
-/

namespace KvCache

/-- Users with password hashes, and each user's map. -/
structure Reference where
  users : String → Option String
  entries : String → String → Option (String × Option Int)

namespace Reference

/-- The reference with another item for one key. -/
def update (r : Reference) (username key : String) (item : Option (String × Option Int)) :
    Reference :=
  { r with
    entries := fun u k => if u = username ∧ k = key then item else r.entries u k }

/-- The keys of all users that have expired. -/
def due (r : Reference) (atMs : Int) : Set (String × String) :=
  {p | ∃ value expireAt, r.entries p.1 p.2 = some (value, expireAt) ∧ expired expireAt atMs = true}

/-- The reference without the expired keys. -/
def sweep (r : Reference) (atMs : Int) : Reference :=
  { r with entries := fun u k => (r.entries u k).filter fun p => !expired p.2 atMs }

/-- The keys of a user that have not expired. -/
def live (r : Reference) (username : String) (nowMs : Int) : Set String :=
  {k | ∃ value expireAt, r.entries username k = some (value, expireAt) ∧
    expired expireAt nowMs = false}

open Classical in
/-- The live keys of a user, sorted. -/
noncomputable def liveKeys (r : Reference) (username : String) (nowMs : Int) : List String :=
  if h : (r.live username nowMs).Finite then h.toFinset.sort else []

/-- Carry out a verb for a user. -/
noncomputable def run (username : String) (verb : Verb) (r : Reference) :
    Except SmError (Result × Reference) :=
  match verb with
  | .signup passwordHash =>
    match r.users username with
    | some _ => .ok (.bool false, r)
    | none => .ok (.bool true,
        { r with users := fun u => if u = username then some passwordHash else r.users u })
  | .set key value expireAt =>
    match r.users username with
    | none => .ok (.bool false, r)
    | some _ =>
      if key = "" then .error (.valueError "Key cannot be empty")
      else .ok (.bool true, r.update username key (some (value, expireAt)))
  | .delete key atMs =>
    match r.users username with
    | none => .ok (.bool false, r)
    | some _ => .ok (.bool (existedAt (r.entries username key) atMs), r.update username key none)
  | .expiry key expireAt atMs =>
    match r.users username with
    | none => .ok (.bool false, r)
    | some _ =>
      if refusesExpiry (r.entries username key) expireAt atMs then .ok (.bool false, r)
      else .ok (.bool true,
        r.update username key ((r.entries username key).map fun p => (p.1, expireAt)))
  | .sweep atMs => .ok (.int ((r.due atMs).ncard : Nat), r.sweep atMs)
  | .unknown => .ok (.none, r)

/-- The command of a log entry. -/
noncomputable def command (entry : LogEntry) (r : Reference) : Except SmError (Result × Reference) :=
  match entry.verb with
  | .ok verb => r.run entry.username verb
  | .error e => .error e

/-- The item of a key, for a user there is. -/
def find (r : Reference) (username key : String) : Option (String × Option Int) :=
  (r.users username).bind fun _ => r.entries username key

/-- One operation on the reference and its session table. -/
noncomputable def step (glob : String → String → Bool) (op : Op) (r : Reference)
    (sessions : Sessions) : Except SmError (Output × Reference × Sessions) :=
  match op with
  | .apply entry =>
    (applyWith (Reference.command entry) entry r sessions).map fun p => (.applied p.1, p.2)
  | .get username key atMs nowMs => .ok (.value (liveValue (r.find username key)
      (atMs.elim nowMs fun t => if t = 0 then nowMs else t)), r, sessions)
  | .has username key nowMs =>
    .ok (.flag (liveValue (r.find username key) nowMs).isSome, r, sessions)
  | .ttl username key nowMs => .ok (.seconds (secondsLeft (r.find username key) nowMs), r, sessions)
  | .keys username pattern nowMs => .ok (.names (if (r.users username).isSome then
      selectNames glob pattern (r.liveKeys username nowMs) else []), r, sessions)

/-- The outcomes of operations on the reference, up to the first that raises. -/
noncomputable def trace (glob : String → String → Bool) :
    Reference → Sessions → List Op → List (Except SmError Output)
  | _, _, [] => []
  | r, sessions, op :: ops =>
    match r.step glob op sessions with
    | .ok (out, r', sessions') => .ok out :: trace glob r' sessions' ops
    | .error e => [.error e]

theorem ext' {r r' : Reference} (hu : ∀ u, r.users u = r'.users u)
    (he : ∀ u k, r.entries u k = r'.entries u k) : r = r' := by
  obtain ⟨users, entries⟩ := r
  obtain ⟨users', entries'⟩ := r'
  obtain rfl : users = users' := funext hu
  obtain rfl : entries = entries' := funext fun u => funext (he u)
  rfl

end Reference

/-! ## The database as a reference -/

namespace Database

/-- What the tables say of users and entries. -/
def reference (db : Database) : Reference where
  users u := db.users.get? u
  entries u k := db.getEntryWithExpiry u k

@[simp] theorem users_reference (db : Database) (u : String) :
    db.reference.users u = db.users.get? u := rfl

theorem entries_reference (db : Database) (u k : String) :
    db.reference.entries u k
      = (db.entries.get? (u, k)).map fun row => (row.value, row.expireAt) := rfl

theorem entries_eq_some {db : Database} {u k v : String} {e : Option Int} :
    db.reference.entries u k = some (v, e) ↔
      ∃ row, db.entries.get? (u, k) = some row ∧ row.value = v ∧ row.expireAt = e := by
  rw [entries_reference, Option.map_eq_some_iff]
  simp only [Prod.mk.injEq]

theorem reference_saveUser {db db' : Database} {username passwordHash : String}
    (h : db.saveUser username passwordHash = .ok db') :
    db.users.get? username = none ∧ db'.reference = { db.reference with
      users := fun u => if u = username then some passwordHash else db.reference.users u } := by
  unfold saveUser at h
  split at h
  · cases h
  · next hc =>
      cases h
      refine ⟨Dict.contains_eq_false.mp (by simpa using hc), Reference.ext' (fun u => ?_)
        fun _ _ => rfl⟩
      simp

theorem reference_saveEntry {db : Database} {username : String}
    (h : db.users.contains username = true) (key value : String) (expireAt : Option Int) :
    (db.saveEntry username key value expireAt).reference
      = db.reference.update username key (some (value, expireAt)) := by
  unfold saveEntry
  rw [dif_pos h]
  refine Reference.ext' (fun _ => rfl) fun u k => ?_
  rw [entries_reference]
  simp only [Dict.get?_set, Reference.update, Prod.mk.injEq]
  split
  · rfl
  · rfl

/-- Lookups after a filter by what the lookup gives. -/
theorem get?_keepEntries (db : Database) (keep : (String × String) × EntryRow → Bool)
    (p : String × String) :
    (db.keepEntries keep).entries.get? p = (db.entries.get? p).filter fun row => keep (p, row) := by
  refine Option.ext fun row => ?_
  rw [keepEntries, Dict.get?_eq_some, Dict.mem_filter, Option.filter_eq_some_iff, Dict.get?_eq_some]

theorem reference_deleteEntry {db : Database} {username : String}
    (h : db.users.contains username = true) (key : String) :
    (db.deleteEntry username key).2.reference = db.reference.update username key none := by
  unfold deleteEntry
  rw [if_pos h]
  refine Reference.ext' (fun _ => rfl) fun u k => ?_
  rw [entries_reference, get?_keepEntries]
  simp only [Reference.update, entries_reference]
  by_cases hp : u = username ∧ k = key
  · rw [if_pos hp, hp.1, hp.2]
    simp
  · rw [if_neg hp]
    have hne : (u, k) ≠ (username, key) := by simpa using hp
    cases db.entries.get? (u, k) with
    | none => rfl
    | some row => simp [Option.filter, hne]

theorem reference_setExpiry (db : Database) (username key : String) (expireAt : Option Int) :
    (db.setExpiry username key expireAt).2.reference
      = db.reference.update username key
          ((db.reference.entries username key).map fun p => (p.1, expireAt)) := by
  refine Reference.ext' (fun u => ?_) fun u k => ?_
  · unfold setExpiry
    split <;> rfl
  · simp only [Reference.update, entries_reference]
    unfold setExpiry
    split
    · next h =>
        by_cases hp : u = username ∧ k = key
        · rw [if_pos hp, hp.1, hp.2, h]
          rfl
        · rw [if_neg hp]
    · next row h =>
        simp only [Dict.get?_set, Prod.mk.injEq]
        by_cases hp : u = username ∧ k = key
        · rw [if_pos hp, if_pos hp, h]
          rfl
        · rw [if_neg hp, if_neg hp]

theorem reference_deleteExpired (db : Database) (atMs : Int) :
    (db.deleteExpired atMs).2.reference = db.reference.sweep atMs := by
  refine Reference.ext' (fun _ => rfl) fun u k => ?_
  rw [deleteExpired, entries_reference, get?_keepEntries]
  simp only [Reference.sweep, entries_reference]
  cases db.entries.get? (u, k) with
  | none => rfl
  | some row => by_cases h : expired row.expireAt atMs = true <;> simp [Option.filter, h]

/-- A sweep deletes as many rows as there are expired keys. -/
theorem deleted_deleteExpired (db : Database) (atMs : Int) :
    (db.deleteExpired atMs).1 = (db.reference.due atMs).ncard := by
  have hset : db.reference.due atMs
      = ↑((db.entries.items.filter fun p => expired p.2.expireAt atMs).map Prod.fst).toFinset := by
    ext ⟨u, k⟩
    simp only [Reference.due, Set.mem_ofPred_eq, List.coe_toFinset, List.mem_map, List.mem_filter]
    constructor
    · rintro ⟨v, e, h, he⟩
      obtain ⟨row, hrow, -, rfl⟩ := entries_eq_some.mp h
      exact ⟨((u, k), row), ⟨Dict.get?_eq_some.mp hrow, he⟩, rfl⟩
    · rintro ⟨⟨p, row⟩, ⟨hp, he⟩, rfl⟩
      exact ⟨_, _, entries_eq_some.mpr ⟨row, Dict.get?_eq_some.mpr hp, rfl, rfl⟩, he⟩
  have hn : ((db.entries.items.filter fun p => expired p.2.expireAt atMs).map Prod.fst).Nodup :=
    db.entries.nodup.sublist (List.filter_sublist.map _)
  rw [hset, Set.ncard_coe_finset, List.toFinset_card_of_nodup hn, List.length_map]
  rfl

/-! ## A user's rows -/

theorem mem_rowsOf {db : Database} {username k : String} {row : EntryRow} :
    (k, row) ∈ db.rowsOf username ↔ db.entries.get? (username, k) = some row := by
  rw [rowsOf, List.mem_filterMap, Dict.get?_eq_some]
  constructor
  · rintro ⟨⟨⟨u, k'⟩, row'⟩, hp, h⟩
    by_cases hu : u = username
    · subst hu
      simp only [if_true, Option.some.injEq, Prod.mk.injEq] at h
      obtain ⟨rfl, rfl⟩ := h
      exact hp
    · simp [hu] at h
  · exact fun h => ⟨_, h, by simp⟩

theorem nodup_rowsOf (db : Database) (username : String) :
    ((db.rowsOf username).map Prod.fst).Nodup := by
  have hn := db.entries.nodup
  unfold rowsOf
  generalize db.entries.items = l at hn
  induction l with
  | nil => exact List.nodup_nil
  | cons p l ih =>
      rw [List.map_cons, List.nodup_cons] at hn
      rw [List.filterMap_cons]
      by_cases hu : p.1.1 = username
      · simp only [hu, if_true, List.map_cons, List.nodup_cons]
        refine ⟨fun hmem => hn.1 ?_, ih hn.2⟩
        obtain ⟨⟨k, row⟩, hq, hk⟩ := List.mem_map.mp hmem
        obtain ⟨q, hql, hf⟩ := List.mem_filterMap.mp hq
        by_cases hq' : q.1.1 = username
        · simp only [hq', if_true, Option.some.injEq, Prod.mk.injEq] at hf
          refine List.mem_map.mpr ⟨q, hql, Prod.ext (hq'.trans hu.symm) (hf.1.trans hk)⟩
        · simp [hq'] at hf
      · simp only [hu, if_false]
        exact ih hn.2

/-- Every loaded entry is a row. -/
theorem get?_getAllEntries {db : Database} {username k v : String} {limit : Nat}
    (h : (db.getAllEntries username limit).get? k = some v) :
    ∃ row, db.entries.get? (username, k) = some row ∧ row.value = v := by
  unfold getAllEntries at h
  split at h
  · have hm := Dict.mem_of_get?_ofList h
    rw [List.mem_map] at hm
    obtain ⟨⟨k', row⟩, hp, heq⟩ := hm
    obtain ⟨rfl, rfl⟩ := Prod.mk.inj heq
    have hs := List.mem_of_mem_take (List.mem_reverse.mp hp)
    rw [List.mem_insertionSort, List.mem_reverse, mem_rowsOf] at hs
    exact ⟨row, hs, rfl⟩
  · simp at h

theorem get?_getExpiries (db : Database) (username k : String) :
    (db.getExpiries username).get? k = (db.entries.get? (username, k)).bind (·.expireAt) := by
  have hn : (((db.rowsOf username).filterMap fun p => p.2.expireAt.map (p.1, ·)).map
      Prod.fst).Nodup := by
    have h := nodup_rowsOf db username
    generalize db.rowsOf username = l at h
    induction l with
    | nil => exact List.nodup_nil
    | cons p l ih =>
        rw [List.map_cons, List.nodup_cons] at h
        rw [List.filterMap_cons]
        cases p.2.expireAt with
        | none => exact ih h.2
        | some t =>
            simp only [Option.map_some, List.map_cons, List.nodup_cons]
            refine ⟨fun hmem => h.1 ?_, ih h.2⟩
            obtain ⟨q, hq, hk⟩ := List.mem_map.mp hmem
            obtain ⟨q', hq', hf⟩ := List.mem_filterMap.mp hq
            obtain ⟨t', -, rfl⟩ := Option.map_eq_some_iff.mp hf
            exact List.mem_map.mpr ⟨q', hq', hk⟩
  refine Option.ext fun t => ?_
  rw [getExpiries, Dict.get?_ofList_of_nodup hn, List.mem_filterMap, Option.bind_eq_some_iff]
  constructor
  · rintro ⟨⟨k', row⟩, hp, hf⟩
    obtain ⟨t', ht', heq⟩ := Option.map_eq_some_iff.mp hf
    obtain ⟨rfl, rfl⟩ := Prod.mk.inj heq
    exact ⟨row, mem_rowsOf.mp hp, ht'⟩
  · rintro ⟨row, hrow, ht⟩
    exact ⟨(k, row), mem_rowsOf.mpr hrow, by simp [ht]⟩

/-- The database lists the live keys. -/
theorem listKeys_eq (db : Database) (username : String) (nowMs : Int) :
    db.listKeys username nowMs = db.reference.liveKeys username nowMs := by
  let l := ((db.rowsOf username).filter fun p => !expired p.2.expireAt nowMs).map Prod.fst
  have hn : l.Nodup := (nodup_rowsOf db username).sublist (List.filter_sublist.map _)
  have hmem (k : String) : k ∈ l ↔ k ∈ db.reference.live username nowMs := by
    simp only [l, List.mem_map, List.mem_filter, Reference.live, Set.mem_ofPred_eq]
    constructor
    · rintro ⟨⟨k', row⟩, ⟨hp, he⟩, rfl⟩
      exact ⟨_, _, entries_eq_some.mpr ⟨row, mem_rowsOf.mp hp, rfl, rfl⟩, by simpa using he⟩
    · rintro ⟨v, e, h, he⟩
      obtain ⟨row, hrow, -, rfl⟩ := entries_eq_some.mp h
      exact ⟨(k, row), ⟨mem_rowsOf.mpr hrow, by simpa using he⟩, rfl⟩
  have hfin : (db.reference.live username nowMs).Finite :=
    (List.finite_toSet l).subset fun k hk => (hmem k).mpr hk
  rw [Reference.liveKeys, dif_pos hfin]
  have hsorted : (l.insertionSort (· ≤ ·)).SortedLE := List.sortedLE_insertionSort
  change l.insertionSort (· ≤ ·) = _
  refine List.Perm.eq_of_sortedLE hsorted ?_ ?_
  · exact (Finset.pairwise_sort _ _).sortedLE
  · refine (List.perm_ext_iff_of_nodup ?_ (Finset.sort_nodup _ _)).mpr fun k => ?_
    · exact (List.perm_insertionSort _ _).nodup_iff.mpr hn
    · rw [List.mem_insertionSort, hmem, Finset.mem_sort, Set.Finite.mem_toFinset]

end Database

end KvCache
