import KvCache.FaultyCalls
import KvCache.SnapshotRuns

/-!
# Restoring a snapshot file, all or nothing

A snapshot file may be malformed at any line, and any database call may
raise. In RAM the new stores are built aside and swapped in at the end. With
a database the tables are overwritten in one transaction and then RAM is
read back from them, so a failure between the two leaves new tables under
old RAM (`restore_is_atomic_iff`).
-/

namespace KvCache

open StateWp

/-! ## Snapshot files -/

/-- What a line of a snapshot file is. -/
inductive SnapshotLine where
  | row (row : SnapshotRow)
  /-- a blank line, or an object of none of the three kinds -/
  | skipped
  /-- no JSON, or fields of another number or type -/
  | malformed
deriving DecidableEq

namespace Database

def insertLine (db : Database) : SnapshotLine → Except SmError Database
  | .row row => db.insertRow row
  | .skipped => .ok db
  | .malformed => .error .malformed

/-- `replace_from` on a file. -/
def replaceLines (lines : List SnapshotLine) (db : Database) : Except SmError Database :=
  lines.foldlM insertLine (empty db.clock)

end Database

def restoreLine (acc : Dict String Store × Sessions) :
    SnapshotLine → M (Dict String Store × Sessions)
  | .row row => restoreRow acc row
  | .skipped => pure acc
  | .malformed => throw .malformed

/-- `restore` on a file. -/
def restoreLines (lines : List SnapshotLine) : M Unit := do
  let m ← get
  if m.useDb then
    dbCall fun db => (db.replaceLines lines).map ((), ·)
    loadFromDb
  else
    let (stores, sessions) ← lines.foldlM restoreLine (Dict.empty, Dict.empty)
    modify fun m => { m with stores, sessions }

/-- On a file of rows it is `restore`. -/
theorem restoreLines_rows (rows : List SnapshotRow) :
    restoreLines (rows.map .row) = restore rows := by
  have hdb : ∀ db : Database, db.replaceLines (rows.map .row) = db.replaceFrom rows := by
    intro db
    rw [Database.replaceLines, List.foldlM_map]
    rfl
  unfold restoreLines restore
  simp only [hdb, List.foldlM_map]
  rfl

/-! ## What a file says -/

/-- Users, values, expiry times and session rows. -/
structure Contents where
  users : String → Option String := fun _ => none
  values : String → String → Option String := fun _ _ => none
  expiries : String → String → Option Int := fun _ _ => none
  sessions : String → Option SessionRow := fun _ => none

namespace Contents

/-- A user's row starts the user anew. An entry without an expiry time leaves
the one that an earlier row of the key gave. -/
def add (c : Contents) : SnapshotLine → Contents
  | .row (.user username passwordHash) =>
    { c with
      users := fun u => if u = username then some passwordHash else c.users u
      values := fun u k => if u = username then none else c.values u k
      expiries := fun u k => if u = username then none else c.expiries u k }
  | .row (.entry username key value expireAt) =>
    { c with
      values := fun u k => if u = username ∧ k = key then some value else c.values u k
      expiries := fun u k =>
        if u = username ∧ k = key ∧ expireAt ≠ none then expireAt else c.expiries u k }
  | .row (.session clientId seq result index) =>
    { c with
      sessions := fun cid => if cid = clientId then some ⟨seq, result, index⟩ else c.sessions cid }
  | .skipped => c
  | .malformed => c

def item (c : Contents) (username key : String) : Option (String × Option Int) :=
  (c.values username key).map fun v => (v, c.expiries username key)

end Contents

def contentsOf (lines : List SnapshotLine) : Contents := lines.foldl Contents.add {}

/-- A session and the row it is read from. -/
def Session.ReadFrom (s : Session) (row : SessionRow) : Prop :=
  s.seq = row.lastSeq ∧ Result.loads row.result = .ok s.result ∧ s.index = row.lastIndex

/-- Tables and RAM say what a file says; RAM may lack keys of a user that
the database has, or that were more than fit into a cache. -/
structure Describes (m : CacheStateMachine) (c : Contents) : Prop where
  tables : m.useDb = true → (∀ u, m.db.users.get? u = c.users u) ∧
    (∀ u k, m.db.getEntryWithExpiry u k = c.item u k) ∧
    ∀ cid, m.db.sessions.get? cid = c.sessions cid
  users : ∀ u, (m.stores.get? u).map (·.passwordHash) = c.users u
  entries : ∀ u s, m.stores.get? u = some s → s.username = u ∧
    ∀ k item, s.peek k = some item → c.item u k = some item
  full : m.useDb = false → ∀ u s k, m.stores.get? u = some s → s.peek k = none →
    c.item u k ≠ none → s.cache.data.size = m.capacity
  sessions : ∀ cid, Option.Rel Session.ReadFrom (m.sessions.get? cid) (c.sessions cid)

/-- Everything in RAM and in the tables is as it was. -/
structure Unchanged (m m' : CacheStateMachine) : Prop where
  stores : m'.stores = m.stores
  sessions : m'.sessions = m.sessions
  userRows : m'.db.users = m.db.users
  entryRows : m'.db.entries = m.db.entries
  sessionRows : m'.db.sessions = m.db.sessions

/-- A restore that returns has restored the file, and one that raises has
changed nothing. -/
def RestoresAtomically (m : CacheStateMachine) (lines : List SnapshotLine) : Prop :=
  wp (restoreLines lines) (fun _ m' => Describes m' (contentsOf lines)) (fun _ m' => Unchanged m m') m

/-! ## In RAM -/

/-- Stores and sessions built so far from lines that say `c`. -/
structure BuiltFrom (capacity : Nat) (acc : Stores × Sessions) (c : Contents) : Prop where
  users : ∀ u, (acc.1.get? u).map (·.passwordHash) = c.users u
  name : ∀ u s, acc.1.get? u = some s → s.username = u
  size : ∀ u s, acc.1.get? u = some s → s.cache.capacity = capacity
  values : ∀ u s k v, acc.1.get? u = some s → s.cache.data.get? k = some v → c.values u k = some v
  expiries : ∀ u s k, acc.1.get? u = some s → s.expiry.get? k = c.expiries u k
  full : ∀ u s k, acc.1.get? u = some s → s.cache.data.get? k = none → c.values u k ≠ none →
    s.cache.data.size = capacity
  sessions : ∀ cid, Option.Rel Session.ReadFrom (acc.2.get? cid) (c.sessions cid)

theorem builtFrom_empty (capacity : Nat) : BuiltFrom capacity (Dict.empty, Dict.empty) {} where
  users u := rfl
  name u s h := by cases h
  size u s h := by cases h
  values u s k v h := by cases h
  expiries u s k h := by cases h
  full u s k h := by cases h
  sessions cid := Option.Rel.none

/-- A key that was inserted is missing only from a full cache. -/
theorem full_insert {c : LRUCache} {key value k : String} (hne : k ≠ key)
    (hfull : c.data.get? k = none → c.data.size = c.capacity)
    (hk : (c.insert key value).data.get? k = none) :
    (c.insert key value).data.size = c.capacity := by
  refine LRUCache.size_insert_of_full ?_ key value
  cases hf : c.isFull with
  | true => rfl
  | false =>
      rw [LRUCache.get?_insert_of_room value k (fun _ => hf), if_neg hne] at hk
      simp [LRUCache.isFull, hfull hk] at hf

section Add

variable {capacity : Nat} {acc : Stores × Sessions} {c : Contents}

theorem BuiltFrom.addUser (b : BuiltFrom capacity acc c) (username passwordHash : String)
    (hc : 0 < capacity) :
    BuiltFrom capacity (acc.1.set username (Store.fresh username passwordHash capacity hc), acc.2)
      (c.add (.row (.user username passwordHash))) := by
  -- a store other than the new one was there, and its user is another
  have hold : ∀ {u s}, Dict.get? (acc.1.set username
      (Store.fresh username passwordHash capacity hc)) u = some s →
      (u = username ∧ s = Store.fresh username passwordHash capacity hc) ∨
        (u ≠ username ∧ acc.1.get? u = some s) := by
    intro u s hs
    rw [Dict.get?_set] at hs
    split at hs
    · next hu => exact Or.inl ⟨hu, (Option.some.inj hs).symm⟩
    · next hu => exact Or.inr ⟨hu, hs⟩
  refine ⟨?_, ?_, ?_, ?_, ?_, ?_, b.sessions⟩
  · intro u
    rw [Dict.get?_set]
    simp only [Contents.add]
    split
    · rfl
    · exact b.users u
  · intro u s hs
    rcases hold hs with ⟨rfl, rfl⟩ | ⟨-, hs⟩
    · rfl
    · exact b.name u s hs
  · intro u s hs
    rcases hold hs with ⟨-, rfl⟩ | ⟨-, hs⟩
    · rfl
    · exact b.size u s hs
  · intro u s k v hs hk
    rcases hold hs with ⟨-, rfl⟩ | ⟨hu, hs⟩
    · cases hk
    · simpa only [Contents.add, hu, if_false] using b.values u s k v hs hk
  · intro u s k hs
    rcases hold hs with ⟨rfl, rfl⟩ | ⟨hu, hs⟩
    · simp [Contents.add, Store.fresh]
    · simpa only [Contents.add, hu, if_false] using b.expiries u s k hs
  · intro u s k hs hk hv
    rcases hold hs with ⟨rfl, rfl⟩ | ⟨hu, hs⟩
    · simp [Contents.add] at hv
    · simp only [Contents.add, hu, if_false] at hv
      exact b.full u s k hs hk hv

theorem BuiltFrom.addEntry (b : BuiltFrom capacity acc c) {username : String} {s₀ : Store}
    (hs₀ : acc.1.get? username = some s₀) (key value : String) (expireAt : Option Int) :
    BuiltFrom capacity (acc.1.set username (if expireAt.isSome then
        (s₀.put key value).setExpiry key expireAt else s₀.put key value), acc.2)
      (c.add (.row (.entry username key value expireAt))) := by
  generalize hs₁ : (if expireAt.isSome then
    (s₀.put key value).setExpiry key expireAt else s₀.put key value) = s₁
  have hcache : s₁.cache = s₀.cache.insert key value := by
    rw [← hs₁]
    split <;> rfl
  have hname : s₁.username = s₀.username ∧ s₁.passwordHash = s₀.passwordHash := by
    rw [← hs₁]
    split <;> exact ⟨rfl, rfl⟩
  have hexpiry : ∀ k, s₁.expiry.get? k
      = if k = key ∧ expireAt ≠ none then expireAt else s₀.expiry.get? k := by
    intro k
    rw [← hs₁]
    cases expireAt with
    | none => simp [Store.put]
    | some t =>
        simp only [Option.isSome_some, if_true]
        rw [get?_setExpiry]
        simp [Store.put]
  have hold : ∀ {u s}, Dict.get? (acc.1.set username s₁) u = some s →
      (u = username ∧ s = s₁) ∨ (u ≠ username ∧ acc.1.get? u = some s) := by
    intro u s hs
    rw [Dict.get?_set] at hs
    split at hs
    · next hu => exact Or.inl ⟨hu, (Option.some.inj hs).symm⟩
    · next hu => exact Or.inr ⟨hu, hs⟩
  refine ⟨?_, ?_, ?_, ?_, ?_, ?_, b.sessions⟩
  · intro u
    rw [Dict.get?_set]
    have hu := b.users u
    split
    · next h =>
        subst h
        rw [hs₀] at hu
        exact (congrArg some hname.2).trans hu
    · exact hu
  · intro u s hs
    rcases hold hs with ⟨rfl, rfl⟩ | ⟨-, hs⟩
    · exact hname.1.trans (b.name u s₀ hs₀)
    · exact b.name u s hs
  · intro u s hs
    rcases hold hs with ⟨rfl, rfl⟩ | ⟨-, hs⟩
    · rw [hcache, LRUCache.capacity_insert]
      exact b.size u s₀ hs₀
    · exact b.size u s hs
  · intro u s k v hs hk
    rcases hold hs with ⟨rfl, rfl⟩ | ⟨hu, hs⟩
    · rw [hcache] at hk
      rcases get?_insert_cases hk with ⟨rfl, rfl⟩ | ⟨hne, hk⟩
      · simp [Contents.add]
      · simpa only [Contents.add, hne, and_false, if_false] using b.values u s₀ k v hs₀ hk
    · simpa only [Contents.add, hu, false_and, if_false] using b.values u s k v hs hk
  · intro u s k hs
    rcases hold hs with ⟨rfl, rfl⟩ | ⟨hu, hs⟩
    · rw [hexpiry, b.expiries u s₀ k hs₀]
      simp only [Contents.add, true_and]
    · simpa only [Contents.add, hu, false_and, if_false] using b.expiries u s k hs
  · intro u s k hs hk hv
    rcases hold hs with ⟨rfl, rfl⟩ | ⟨hu, hs⟩
    · rw [hcache] at hk ⊢
      have hcap := b.size u s₀ hs₀
      by_cases hne : k = key
      · subst hne
        rw [LRUCache.get?_insert, if_pos rfl] at hk
        cases hk
      · simp only [Contents.add, hne, and_false, if_false] at hv
        rw [← hcap]
        exact full_insert hne (fun h => hcap ▸ b.full u s₀ k hs₀ h hv) hk
    · simp only [Contents.add, hu, false_and, if_false] at hv
      exact b.full u s k hs hk hv

theorem BuiltFrom.addSession (b : BuiltFrom capacity acc c) (clientId : String) (seq : Int)
    {text : String} {r : Result} (hr : Result.loads text = .ok r) (index : Nat) :
    BuiltFrom capacity (acc.1, acc.2.set clientId ⟨seq, r, index⟩)
      (c.add (.row (.session clientId seq text index))) := by
  refine ⟨b.users, b.name, b.size, b.values, b.expiries, b.full, ?_⟩
  intro cid
  rw [Dict.get?_set]
  simp only [Contents.add]
  split
  · exact Option.Rel.some ⟨rfl, hr, rfl⟩
  · exact b.sessions cid

end Add

/-- Lines that are read in RAM. Reading them changes nothing yet. -/
theorem wp_restoreLines_ram {m : CacheStateMachine} {lines : List SnapshotLine}
    {acc : Stores × Sessions} {c : Contents} (b : BuiltFrom m.capacity acc c) :
    wp (lines.foldlM restoreLine acc)
      (fun acc' m' => m' = m ∧ BuiltFrom m.capacity acc' (lines.foldl Contents.add c))
      (fun _ m' => m' = m) m := by
  induction lines generalizing acc c with
  | nil => exact ⟨rfl, b⟩
  | cons line lines ih =>
      rw [List.foldlM_cons, wp_bind, List.foldl_cons]
      have hstep : wp (restoreLine acc line)
          (fun acc' m' => m' = m ∧ BuiltFrom m.capacity acc' (c.add line))
          (fun _ m' => m' = m) m := by
        cases line with
        | skipped => exact ⟨rfl, b⟩
        | malformed => exact rfl
        | row row =>
            cases row with
            | user username passwordHash =>
                unfold restoreLine restoreRow newStore
                dsimp only
                rw [wp_bind, wp_bind, wp_get]
                split
                · next hc => exact ⟨rfl, b.addUser _ _ hc⟩
                · exact rfl
            | entry username key value expireAt =>
                unfold restoreLine restoreRow
                dsimp only
                cases hs : acc.1.get? username with
                | none => exact rfl
                | some s =>
                    dsimp only
                    unfold Store.cacheSet
                    rw [wp_bind, wp_ite]
                    split
                    · exact rfl
                    · exact ⟨rfl, b.addEntry hs _ _ _⟩
            | session clientId seq text index =>
                unfold restoreLine restoreRow
                dsimp only
                cases hr : Result.loads text with
                | error e => exact rfl
                | ok r => exact ⟨rfl, b.addSession _ _ hr _⟩
      refine wp_mono hstep ?_ (fun _ _ h => h)
      rintro acc' m' ⟨rfl, b'⟩
      exact ih b'

/-! ## In the database -/

/-- Tables that say what a file says. -/
structure TablesSay (db : Database) (c : Contents) : Prop where
  users : ∀ u, db.users.get? u = c.users u
  entries : ∀ u k, db.getEntryWithExpiry u k = c.item u k
  unset : ∀ u k, c.values u k = none → c.expiries u k = none
  sessions : ∀ cid, db.sessions.get? cid = c.sessions cid

/-- A key belongs to a user there is. -/
theorem getEntryWithExpiry_of_noUser {db : Database} {u : String} (h : db.users.get? u = none)
    (k : String) : db.getEntryWithExpiry u k = none := by
  unfold Database.getEntryWithExpiry
  cases hrow : db.entries.get? (u, k) with
  | none => rfl
  | some row =>
      have howned := db.owned _ (Dict.get?_eq_some.mp hrow)
      dsimp only at howned
      rw [Dict.contains, h] at howned
      cases howned

theorem TablesSay.insertLine {db db' : Database} {c : Contents} {line : SnapshotLine}
    (t : TablesSay db c) (h : db.insertLine line = .ok db') : TablesSay db' (c.add line) := by
  cases line with
  | skipped =>
      cases h
      exact t
  | malformed => cases h
  | row row =>
      cases row with
      | user username passwordHash =>
          have hsave : db.saveUser username passwordHash = .ok db' := h
          obtain ⟨hnone, href⟩ := Database.reference_saveUser hsave
          have hsessions : db'.sessions = db.sessions := by
            unfold Database.saveUser at hsave
            split at hsave
            · cases hsave
            · cases hsave
              rfl
          refine ⟨?_, ?_, ?_, ?_⟩
          · intro u
            have hu := congrFun (congrArg Reference.users href) u
            rw [Database.users_reference] at hu
            rw [hu]
            simp only [Contents.add, Database.users_reference, t.users]
          · intro u k
            have hk := congrFun (congrFun (congrArg Reference.entries href) u) k
            refine Eq.trans hk ?_
            simp only [Contents.item, Contents.add]
            by_cases hu : u = username
            · subst hu
              simp only [if_true]
              exact getEntryWithExpiry_of_noUser hnone k
            · simp only [hu, if_false]
              exact t.entries u k
          · intro u k hv
            simp only [Contents.add] at hv ⊢
            split
            · rfl
            · next hu =>
                rw [if_neg hu] at hv
                exact t.unset u k hv
          · intro cid
            rw [hsessions]
            exact t.sessions cid
      | entry username key value expireAt =>
          change db.insertRow (.entry username key value expireAt) = .ok db' at h
          unfold Database.insertRow at h
          dsimp only at h
          split at h
          · next hu =>
              split at h
              · cases h
              · next hk =>
                  cases h
                  have href := Database.reference_saveEntry hu key value expireAt
                  have hfresh : c.values username key = none := by
                    have hrow : db.entries.get? (username, key) = none :=
                      Dict.contains_eq_false.mp (by simpa using hk)
                    have hitem := t.entries username key
                    unfold Database.getEntryWithExpiry at hitem
                    rw [hrow] at hitem
                    simpa [Contents.item] using hitem.symm
                  refine ⟨?_, ?_, ?_, ?_⟩
                  · intro u
                    rw [Database.users_saveEntry]
                    exact t.users u
                  · intro u k
                    have hk := congrFun (congrFun (congrArg Reference.entries href) u) k
                    refine Eq.trans hk ?_
                    simp only [Reference.update, Contents.item, Contents.add]
                    by_cases hp : u = username ∧ k = key
                    · obtain ⟨rfl, rfl⟩ := hp
                      cases expireAt with
                      | none => simp [t.unset _ _ hfresh]
                      | some e => simp
                    · have hp' : ¬ (u = username ∧ k = key ∧ expireAt ≠ none) :=
                        fun h => hp ⟨h.1, h.2.1⟩
                      rw [if_neg hp, if_neg hp, if_neg hp']
                      exact t.entries u k
                  · intro u k hv
                    simp only [Contents.add] at hv ⊢
                    split at hv
                    · cases hv
                    · next hp =>
                        rw [if_neg fun h => hp ⟨h.1, h.2.1⟩]
                        exact t.unset u k hv
                  · intro cid
                    rw [sessions_saveEntry]
                    exact t.sessions cid
          · cases h
      | session clientId seq text index =>
          change db.insertRow (.session clientId seq text index) = .ok db' at h
          unfold Database.insertRow at h
          dsimp only at h
          split at h
          · cases h
          · cases h
            refine ⟨t.users, t.entries, t.unset, ?_⟩
            intro cid
            simp only [Database.saveSession, Dict.get?_set, Contents.add]
            split
            · rfl
            · exact t.sessions cid

theorem tablesSay_replaceLines {db db' : Database} {lines : List SnapshotLine}
    (h : db.replaceLines lines = .ok db') : TablesSay db' (contentsOf lines) := by
  have hfold : ∀ {d : Database} {c : Contents}, TablesSay d c →
      lines.foldlM Database.insertLine d = .ok db' → TablesSay db' (lines.foldl Contents.add c) := by
    clear h
    induction lines with
    | nil =>
        intro d c t h
        cases h
        exact t
    | cons line lines ih =>
        intro d c t h
        rw [List.foldlM_cons] at h
        rw [List.foldl_cons]
        cases hline : d.insertLine line with
        | error e =>
            rw [hline] at h
            cases h
        | ok d' =>
            rw [hline] at h
            exact ih (t.insertLine hline) h
  exact hfold ⟨fun _ => rfl, fun _ _ => rfl, fun _ _ _ => rfl, fun _ => rfl⟩ h

/-! ## Reading RAM back -/

/-- Has a user's store room for a key, and no key of empty name to load? -/
def Readable (capacity : Nat) (db : Database) (username : String) : Prop :=
  0 < capacity ∧ (db.getAllEntries username capacity).get? "" = none

/-- `load_from_db` returns: its calls (one for the users, two for each of
them, one for the sessions) do not raise, and the rows can be read. -/
structure ReadsBack (capacity : Nat) (faults sessionFaults : List Bool) (db : Database) : Prop where
  calls : ∀ b ∈ faults.take (1 + 2 * db.users.size), b = false
  sessionCall : sessionFaults.headD false = false
  stores : ∀ u passwordHash, db.users.get? u = some passwordHash → Readable capacity db u
  sessions : ∀ cid row, db.sessions.get? cid = some row → ∃ r, Result.loads row.result = .ok r

/-- Nothing but the list of failing calls has changed. -/
structure Untouched (m m' : CacheStateMachine) : Prop where
  useDb : m'.useDb = m.useDb
  capacity : m'.capacity = m.capacity
  stores : m'.stores = m.stores
  sessions : m'.sessions = m.sessions
  db : m'.db = m.db
  sessionFaults : m'.sessionFaults = m.sessionFaults

section ReadBack

variable {m : CacheStateMachine} {username passwordHash : String}

theorem Untouched.refl (m : CacheStateMachine) : Untouched m m := ⟨rfl, rfl, rfl, rfl, rfl, rfl⟩

theorem Untouched.trans {m₁ m₂ m₃ : CacheStateMachine} (h : Untouched m₁ m₂)
    (h' : Untouched m₂ m₃) : Untouched m₁ m₃ :=
  ⟨h'.useDb.trans h.useDb, h'.capacity.trans h.capacity, h'.stores.trans h.stores,
    h'.sessions.trans h.sessions, h'.db.trans h.db, h'.sessionFaults.trans h.sessionFaults⟩

theorem wp_dbRead {α : Type} {f : Database → α} {Q : α → CacheStateMachine → Prop}
    {R : SmError → CacheStateMachine → Prop} :
    wp (dbRead f) Q R m ↔
      if m.faults.headD false then R .database { m with faults := m.faults.tail }
      else Q (f m.db) { m with faults := m.faults.tail } := by
  exact wp_dbCall

/-- A key of empty name stops the filling of a cache. -/
theorem fill_raises {l : List (String × String)} (store : Store) (hl : ∃ p ∈ l, p.1 = "") :
    wp (store.fill l) (fun _ _ => False) (fun _ m' => m' = m) m := by
  induction l generalizing store with
  | nil =>
      obtain ⟨p, hp, -⟩ := hl
      cases hp
  | cons p l ih =>
      unfold Store.fill Store.cacheSet
      rw [wp_bind, wp_ite]
      split
      · exact rfl
      · next hp =>
          rw [wp_pure]
          obtain ⟨q, hq, hempty⟩ := hl
          rcases List.mem_cons.mp hq with rfl | hq
          · exact absurd hempty hp
          · exact ih _ ⟨q, hq, hempty⟩

/-- Reading one user's store, whatever the calls do. -/
theorem wp_readStore_faults :
    wp (readStore username passwordHash)
      (fun s m' => (Untouched m m' ∧ m'.faults = m.faults.tail.tail) ∧
        (Readable m.capacity m.db username ∧ m.faults.headD false = false ∧
          m.faults.tail.headD false = false) ∧
        s.username = username ∧ s.passwordHash = passwordHash ∧
        ∀ k item, s.peek k = some item → m.db.getEntryWithExpiry username k = some item)
      (fun _ m' => Untouched m m' ∧ ¬ (Readable m.capacity m.db username ∧
        m.faults.headD false = false ∧ m.faults.tail.headD false = false)) m := by
  unfold readStore newStore
  rw [wp_bind, wp_get, wp_bind, wp_bind, wp_get]
  split
  · next hc =>
      rw [wp_pure, wp_bind, wp_dbRead]
      split
      · next hf =>
          refine ⟨⟨rfl, rfl, rfl, rfl, rfl, rfl⟩, ?_⟩
          rintro ⟨-, hf', -⟩
          rw [hf'] at hf
          cases hf
      · next hf =>
          rw [wp_bind]
          by_cases hblank : ∀ p ∈ (m.db.getAllEntries username m.capacity).items, p.1 ≠ ""
          · refine wp_mono (wp_fill hblank) ?_ (fun _ _ h => h.elim)
            rintro s m' ⟨rfl, h₂, h₃, h₄, h₅⟩
            rw [wp_bind, wp_dbRead]
            split
            · next hf' =>
                refine ⟨⟨rfl, rfl, rfl, rfl, rfl, rfl⟩, ?_⟩
                rintro ⟨-, -, hf''⟩
                dsimp only at hf'
                rw [hf''] at hf'
                cases hf'
            · next hf' =>
                refine ⟨⟨⟨rfl, rfl, rfl, rfl, rfl, rfl⟩, rfl⟩, ⟨⟨hc, ?_⟩, ?_, ?_⟩, h₂, h₃, ?_⟩
                · rw [Dict.get?_eq_none]
                  intro v hv
                  exact hblank _ hv rfl
                · simpa using hf
                · simpa using hf'
                · intro k item hpeek
                  refine peek_loaded ?_ rfl hpeek
                  intro k v hv
                  rcases h₅ k v hv with hm | hm
                  · exact Dict.get?_eq_some.mpr hm
                  · cases hm
          · have hex : ∃ p ∈ (m.db.getAllEntries username m.capacity).items, p.1 = "" := by
              simpa using hblank
            refine wp_mono (fill_raises _ hex) (fun _ _ h => h.elim) ?_
            rintro e m' rfl
            refine ⟨⟨rfl, rfl, rfl, rfl, rfl, rfl⟩, ?_⟩
            rintro ⟨⟨-, hnone⟩, -⟩
            obtain ⟨⟨k, v⟩, hp, rfl⟩ := hex
            exact Dict.get?_eq_none.mp hnone v hp
  · next hc =>
      refine ⟨Untouched.refl m, ?_⟩
      rintro ⟨⟨h, -⟩, -⟩
      exact hc h

/-- The stores of a list of users can be read, one after the other. -/
def ReadsUsers (capacity : Nat) (db : Database) : List (String × String) → List Bool → Prop
  | [], _ => True
  | p :: users, faults =>
    (Readable capacity db p.1 ∧ faults.headD false = false ∧ faults.tail.headD false = false) ∧
      ReadsUsers capacity db users faults.tail.tail

theorem readsUsers_iff {capacity : Nat} {db : Database} {users : List (String × String)}
    {faults : List Bool} : ReadsUsers capacity db users faults ↔
      (∀ p ∈ users, Readable capacity db p.1) ∧ ∀ b ∈ faults.take (2 * users.length), b = false := by
  induction users generalizing faults with
  | nil => simp [ReadsUsers]
  | cons p users ih =>
      have htwo : 2 * (p :: users).length = 2 * users.length + 2 := by
        rw [List.length_cons]
        omega
      have htake : (∀ b ∈ faults.take (2 * users.length + 2), b = false) ↔
          faults.headD false = false ∧ faults.tail.headD false = false ∧
            ∀ b ∈ faults.tail.tail.take (2 * users.length), b = false := by
        match faults with
        | [] => simp
        | [b] => simp
        | b :: b' :: l => simp
      rw [ReadsUsers, ih, htwo, htake]
      simp only [List.forall_mem_cons]
      tauto

/-- Every store is its user's and holds nothing but the user's data. -/
def StoresShow (db : Database) (stores : Stores) : Prop :=
  ∀ u s, stores.get? u = some s → s.username = u ∧
    ∀ k item, s.peek k = some item → db.getEntryWithExpiry u k = some item

theorem wp_readStores_faults {users : List (String × String)} (hn : (users.map Prod.fst).Nodup)
    {stores₀ : Stores} (h₀ : StoresShow m.db stores₀) :
    wp (users.foldlM (fun stores p => do
        let store ← readStore p.1 p.2
        pure (stores.set p.1 store)) stores₀)
      (fun stores m' => Untouched m m' ∧ ReadsUsers m.capacity m.db users m.faults ∧
        StoresShow m.db stores ∧ ∀ u, (stores.get? u).map (·.passwordHash)
          = (users.lookup u).or ((stores₀.get? u).map (·.passwordHash)))
      (fun _ m' => Untouched m m' ∧ ¬ ReadsUsers m.capacity m.db users m.faults) m := by
  induction users generalizing m stores₀ with
  | nil => exact ⟨Untouched.refl m, trivial, h₀, fun u => by simp⟩
  | cons p users ih =>
      rw [List.map_cons, List.nodup_cons] at hn
      rw [List.foldlM_cons, wp_bind, wp_bind]
      refine wp_mono wp_readStore_faults ?_ ?_
      · rintro s m₁ ⟨⟨hu, hf⟩, hreads, hname, hhash, hkeys⟩
        rw [wp_pure]
        have h₁ : StoresShow m₁.db (stores₀.set p.1 s) := by
          intro u t ht
          rw [hu.db]
          rw [Dict.get?_set] at ht
          split at ht
          · next hup =>
              cases ht
              exact ⟨hname.trans hup.symm, fun k item hk => hup ▸ hkeys k item hk⟩
          · exact h₀ u t ht
        refine wp_mono (ih hn.2 h₁) ?_ ?_
        · rintro stores m₂ ⟨hu', hrest, hshow, hhashes⟩
          rw [hu.db] at hshow
          rw [hu.capacity, hu.db, hf] at hrest
          refine ⟨hu.trans hu', ⟨hreads, hrest⟩, hshow, ?_⟩
          intro u
          rw [hhashes u, Dict.get?_set, List.lookup_cons]
          by_cases hup : u = p.1
          · subst hup
            have hnone : users.lookup p.1 = none := by
              rw [List.lookup_eq_none_iff]
              intro q hq
              refine bne_iff_ne.mpr fun heq => hn.1 ?_
              rw [heq]
              exact List.mem_map_of_mem hq
            simp [hnone, hhash]
          · rw [if_neg hup]
            rw [show (u == p.1) = false from beq_eq_false_iff_ne.mpr hup]
        · rintro e m₂ ⟨hu', hrest⟩
          rw [hu.capacity, hu.db, hf] at hrest
          exact ⟨hu.trans hu', fun h => hrest h.2⟩
      · rintro e m₁ ⟨hu, hreads⟩
        exact ⟨hu, fun h => hreads h.1⟩

/-- Session rows can be read if each of them can. -/
theorem readSessions_cases (rows : List (String × SessionRow)) :
    match readSessions rows with
    | .ok sessions => (∀ p ∈ rows, ∃ r, Result.loads p.2.result = .ok r) ∧
        Dict.Rel Session.ReadFrom sessions (Dict.ofList rows)
    | .error _ => ∃ p ∈ rows, ∀ r, Result.loads p.2.result ≠ .ok r := by
  have hfold : ∀ (l : List (String × SessionRow)) {sessions : Sessions}
      {table : Dict String SessionRow}, Dict.Rel Session.ReadFrom sessions table →
      match (l.foldlM (fun (sessions : Sessions) p => do
          let result ← Result.loads p.2.result
          pure (sessions.set p.1 ⟨p.2.lastSeq, result, p.2.lastIndex⟩)) sessions :
            Except SmError Sessions) with
      | .ok sessions => (∀ p ∈ l, ∃ r, Result.loads p.2.result = .ok r) ∧
          Dict.Rel Session.ReadFrom sessions (l.foldl (fun d p => d.set p.1 p.2) table)
      | .error _ => ∃ p ∈ l, ∀ r, Result.loads p.2.result ≠ .ok r := by
    intro l
    induction l with
    | nil => exact fun hrel => ⟨by simp, hrel⟩
    | cons p l ih =>
        intro sessions table hrel
        rw [List.foldlM_cons, List.foldl_cons]
        cases hr : Result.loads p.2.result with
        | error e => exact ⟨p, by simp, fun r h => by simp [hr] at h⟩
        | ok r =>
            have hset := hrel.set p.1 (v := ⟨p.2.lastSeq, r, p.2.lastIndex⟩) (w := p.2)
              ⟨rfl, hr, rfl⟩
            have h := ih hset
            change match (l.foldlM _ (sessions.set p.1 ⟨p.2.lastSeq, r, p.2.lastIndex⟩) :
              Except SmError Sessions) with | .ok _ => _ | .error _ => _
            revert h
            cases (l.foldlM _ (sessions.set p.1 ⟨p.2.lastSeq, r, p.2.lastIndex⟩) :
              Except SmError Sessions) with
            | error e =>
                rintro ⟨q, hq, hbad⟩
                exact ⟨q, by simp [hq], hbad⟩
            | ok sessions' =>
                rintro ⟨hall, hrel'⟩
                refine ⟨?_, hrel'⟩
                intro q hq
                rcases List.mem_cons.mp hq with rfl | hq
                · exact ⟨r, hr⟩
                · exact hall q hq
  exact hfold rows Dict.rel_empty

theorem readsBack_iff {capacity : Nat} {faults sessionFaults : List Bool} {db : Database} :
    ReadsBack capacity faults sessionFaults db ↔ faults.headD false = false ∧
      ReadsUsers capacity db db.users.items faults.tail ∧ sessionFaults.headD false = false ∧
      ∀ p ∈ db.sessions.items, ∃ r, Result.loads p.2.result = .ok r := by
  have hcalls : (∀ b ∈ faults.take (1 + 2 * db.users.size), b = false) ↔
      faults.headD false = false ∧
        ∀ b ∈ faults.tail.take (2 * db.users.items.length), b = false := by
    rw [Nat.add_comm]
    cases faults with
    | nil => simp
    | cons b l => simp [Dict.size]
  rw [readsUsers_iff]
  constructor
  · intro h
    obtain ⟨h₁, h₂⟩ := hcalls.mp h.calls
    exact ⟨h₁, ⟨fun p hp => h.stores p.1 p.2 (Dict.get?_eq_some.mpr hp), h₂⟩, h.sessionCall,
      fun p hp => h.sessions p.1 p.2 (Dict.get?_eq_some.mpr hp)⟩
  · rintro ⟨h₁, ⟨h₂, h₃⟩, h₄, h₅⟩
    exact ⟨hcalls.mpr ⟨h₁, h₃⟩, h₄, fun u p h => h₂ (u, p) (Dict.get?_eq_some.mp h),
      fun cid row h => h₅ (cid, row) (Dict.get?_eq_some.mp h)⟩

/-- What `load_from_db` does, whatever its calls do. -/
theorem wp_loadFromDb_faults :
    wp loadFromDb
      (fun _ m' => ReadsBack m.capacity m.faults m.sessionFaults m.db ∧ m'.useDb = m.useDb ∧
        m'.db = m.db ∧ StoresShow m.db m'.stores ∧
        (∀ u, (m'.stores.get? u).map (·.passwordHash) = m.db.users.get? u) ∧
        ∀ cid, Option.Rel Session.ReadFrom (m'.sessions.get? cid) (m.db.sessions.get? cid))
      (fun _ m' => ¬ ReadsBack m.capacity m.faults m.sessionFaults m.db ∧
        m'.stores = m.stores ∧ m'.sessions = m.sessions ∧ m'.db = m.db) m := by
  rw [readsBack_iff]
  unfold loadFromDb readStores
  rw [wp_tryCatch, wp_bind, wp_dbRead]
  split
  · next hf =>
      refine ⟨?_, rfl, rfl, rfl⟩
      rintro ⟨h, -⟩
      rw [h] at hf
      cases hf
  · next hf =>
      have hhead : m.faults.headD false = false := by simpa using hf
      have h₀ : StoresShow m.db Dict.empty := by
        intro u s hs
        cases hs
      rw [wp_bind]
      refine wp_mono (wp_readStores_faults (m := { m with faults := m.faults.tail })
        m.db.users.nodup h₀) ?_ ?_
      · rintro stores m₁ ⟨hu, hreads, hshow, hhashes⟩
        have hdb : m₁.db = m.db := hu.db
        have hsf : m₁.sessionFaults = m.sessionFaults := hu.sessionFaults
        rw [wp_bind, wp_sessionCall]
        dsimp only
        rw [hsf]
        split
        · next hs =>
            refine ⟨?_, hu.stores, hu.sessions, hu.db⟩
            rintro ⟨-, -, h, -⟩
            rw [h] at hs
            cases hs
        · next hs =>
            have hsession : m.sessionFaults.headD false = false := by simpa using hs
            have hrows := readSessions_cases m.db.sessions.items
            rw [hdb]
            unfold Database.loadSessions
            cases hr : readSessions m.db.sessions.items with
            | error e =>
                rw [hr] at hrows
                refine ⟨?_, hu.stores, hu.sessions, rfl⟩
                rintro ⟨-, -, -, hall⟩
                obtain ⟨p, hp, hbad⟩ := hrows
                obtain ⟨r, hr⟩ := hall p hp
                exact hbad r hr
            | ok sessions =>
                rw [hr] at hrows
                obtain ⟨hall, hrel⟩ := hrows
                refine ⟨⟨hhead, hreads, hsession, hall⟩, hu.useDb, rfl, hshow, ?_, ?_⟩
                · intro u
                  rw [hhashes u]
                  simp [Dict.get?]
                · intro cid
                  have h := hrel.get? cid
                  have hid : Dict.ofList m.db.sessions.items = m.db.sessions :=
                    Dict.ext_items (Dict.items_ofList m.db.sessions.nodup)
                  rwa [hid] at h
      · rintro e m₁ ⟨hu, hreads⟩
        exact ⟨fun h => hreads h.2.1, hu.stores, hu.sessions, hu.db⟩

end ReadBack

/-! ## All or nothing -/

/-- A restore is all or nothing, except where the database takes the file and
then cannot be read back. -/
theorem restore_is_atomic_iff (m : CacheStateMachine) (lines : List SnapshotLine) :
    RestoresAtomically m lines ↔
      (m.useDb = true → m.faults.headD false = false → ∀ db, m.db.replaceLines lines = .ok db →
        ReadsBack m.capacity m.faults.tail m.sessionFaults db ∨
          (db.users = m.db.users ∧ db.entries = m.db.entries ∧ db.sessions = m.db.sessions)) := by
  unfold RestoresAtomically restoreLines
  rw [wp_bind, wp_get, wp_ite]
  split
  · next hdb =>
      rw [wp_bind, wp_dbCall]
      dsimp only
      split
      · next hf =>
          refine iff_of_true ⟨rfl, rfl, rfl, rfl, rfl⟩ ?_
          intro _ hhead
          rw [hhead] at hf
          cases hf
      · next hf =>
          have hhead : m.faults.headD false = false := by simpa using hf
          cases hreplace : m.db.replaceLines lines with
          | error e =>
              refine iff_of_true ⟨rfl, rfl, rfl, rfl, rfl⟩ ?_
              intro _ _ db h
              cases h
          | ok db =>
              have hsay := tablesSay_replaceLines hreplace
              have hload := wp_loadFromDb_faults
                (m := { m with faults := m.faults.tail, db })
              change wp loadFromDb _ _ { m with faults := m.faults.tail, db } ↔ _
              unfold wp at hload ⊢
              split at hload
              · next m' hrun =>
                  obtain ⟨hback, huse, hdb', hshow, hhash, hsess⟩ := hload
                  refine iff_of_true ?_ ?_
                  · refine ⟨fun _ => ?_, ?_, ?_, ?_, ?_⟩
                    · rw [hdb']
                      exact ⟨hsay.users, hsay.entries, hsay.sessions⟩
                    · exact fun u => (hhash u).trans (hsay.users u)
                    · intro u s hs
                      obtain ⟨hname, hkeys⟩ := hshow u s hs
                      refine ⟨hname, fun k item hk => ?_⟩
                      rw [← hsay.entries]
                      exact hkeys k item hk
                    · intro hram
                      rw [huse] at hram
                      rw [hdb] at hram
                      cases hram
                    · intro cid
                      rw [← hsay.sessions]
                      exact hsess cid
                  · intro _ _ db' h
                    cases h
                    exact Or.inl hback
              · next e m' hrun =>
                  obtain ⟨hback, hst, hss, hdb'⟩ := hload
                  have hdb' : m'.db = db := hdb'
                  constructor
                  · intro hun _ _ db' h
                    cases h
                    refine Or.inr ⟨?_, ?_, ?_⟩
                    · exact hdb' ▸ hun.userRows
                    · exact hdb' ▸ hun.entryRows
                    · exact hdb' ▸ hun.sessionRows
                  · intro h
                    rcases h hdb hhead db rfl with hok | ⟨h₁, h₂, h₃⟩
                    · exact absurd hok hback
                    · rw [← hdb'] at h₁ h₂ h₃
                      exact ⟨hst, hss, h₁, h₂, h₃⟩
  · next hdb =>
      refine iff_of_true ?_ fun h => absurd h hdb
      rw [wp_bind]
      refine wp_mono (wp_restoreLines_ram (builtFrom_empty m.capacity)) ?_ ?_
      · rintro acc m' ⟨rfl, b⟩
        refine ⟨fun h => absurd h hdb, b.users, ?_, ?_, b.sessions⟩
        · intro u s hs
          refine ⟨b.name u s hs, ?_⟩
          intro k item hk
          obtain ⟨v, hv, rfl⟩ := Option.map_eq_some_iff.mp hk
          have hval := b.values u s k v hs hv
          have hexp := b.expiries u s k hs
          unfold contentsOf Contents.item
          rw [hval, ← hexp]
          rfl
        · intro _ u s k hs hk hitem
          have hnone : s.cache.data.get? k = none := by
            unfold Store.peek at hk
            exact Option.map_eq_none_iff.mp hk
          refine b.full u s k hs hnone ?_
          intro hv
          refine hitem ?_
          unfold Contents.item contentsOf
          rw [hv]
          rfl
      · rintro e m' rfl
        exact ⟨rfl, rfl, rfl, rfl, rfl⟩

/-- The call that reads the users back raises, after zoe's tables were
overwritten with ben's. -/
def failsToReload : CacheStateMachine :=
  { after (applyLog [⟨1, 1, .write "SIGNUP h", "zoe", ""⟩]) (machineOf true 2 []) with
    faults := [false, true] }

theorem restore_leaves_old_ram :
    ¬ RestoresAtomically failsToReload [.row (.user "ben" "g")] := by
  have hraise : value? (restoreLines [.row (.user "ben" "g")]) failsToReload = none ∧
      (after (restoreLines [.row (.user "ben" "g")]) failsToReload).db.users.get? "ben" = some "g" ∧
      failsToReload.db.users.get? "ben" = none := by
    decide +kernel
  obtain ⟨hnone, hben, hnew⟩ := hraise
  unfold RestoresAtomically wp
  unfold value? at hnone
  unfold after at hben
  intro h
  split at h
  · next hrun =>
      rw [hrun] at hnone
      cases hnone
  · next hrun =>
      rw [hrun] at hben
      dsimp only at hben
      rw [h.userRows, hnew] at hben
      cases hben

end KvCache
