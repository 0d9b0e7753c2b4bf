import Mathlib.Data.Prod.Lex
import KvCache.Restoring
import KvCache.SortOn

/-!
# Loading a snapshot in batches

`dump_to` and `replace_from` of `apps/users/db_service.py` on tables with row
ids. Users, entries and sessions of a snapshot go through three buffers, each
written to its table when it is full; an entry names its user by the id the
user's row got when its buffer was written. Whatever the batch size, after
each line the rows of a table followed by those of its buffer are what has
been read (`Loaded`), so a dump comes back as it was
(`replaceFrom_inverts_dumpTo`).

`Database.replaceFrom` says of the same method that it inserts one row after
another, without ids and without buffers. `Loaded` holds between the two as
well, so a file that loads one way loads the other way, to the same contents
(`replaceFrom_of_rows`).
-/

namespace KvCache

/-! ## Tables with row ids -/

/-- A row of `cache_users`, without its name. -/
structure UserRow where
  id : Nat
  passwordHash : String

/-- A row of `cache_entries`, without its user id and key. -/
structure StoredEntry where
  id : Nat
  value : String
  expireAt : Option Int
  updatedAt : Int

/-- What an entry is made from, and what `dump_to` says of it but for the
name of its user. -/
structure NewEntry where
  userId : Nat
  key : String
  value : String
  expireAt : Option Int

/-- The three tables. Ids are handed out in ascending order and never again;
`owned` is the foreign key. -/
structure Tables where
  users : Dict String UserRow := Dict.empty
  entries : Dict (Nat × String) StoredEntry := Dict.empty
  sessions : Dict String SessionRow := Dict.empty
  nextUserId : Nat := 1
  nextEntryId : Nat := 1
  /-- what the clock will show, 0 once the readings are used up -/
  clock : List Int := []
  userIds : (users.items.map fun p => p.2.id).Pairwise (· < ·) := by simp
  userIds_lt : ∀ p ∈ users.items, p.2.id < nextUserId := by simp
  entryIds : (entries.items.map fun p => p.2.id).Pairwise (· < ·) := by simp
  entryIds_lt : ∀ p ∈ entries.items, p.2.id < nextEntryId := by simp
  owned : ∀ p ∈ entries.items, ∃ q ∈ users.items, q.2.id = p.1.1 := by simp

namespace Tables

def now (t : Tables) : Int := t.clock.headD 0

theorem pairwise_concat {l : List Nat} {m : Nat} (h : l.Pairwise (· < ·)) (hm : ∀ k ∈ l, k < m) :
    (l ++ [m]).Pairwise (· < ·) :=
  List.pairwise_append.mpr ⟨h, List.pairwise_singleton _ _, fun k hk j hj => by
    rw [List.mem_singleton.mp hj]
    exact hm k hk⟩

/-- Insert a user; the name must be new. -/
def createUser (t : Tables) (row : String × String) : Except SmError Tables :=
  if h : t.users.contains row.1 then .error .database
  else
    have hitems : (t.users.set row.1 ⟨t.nextUserId, row.2⟩).items
        = t.users.items ++ [(row.1, ⟨t.nextUserId, row.2⟩)] := by
      have hnone := Dict.contains_eq_false.mp (Bool.not_eq_true _ ▸ h)
      rw [Dict.set_of_get?_none hnone, Dict.items_putLast_of_get? hnone]
    .ok { t with
      users := t.users.set row.1 ⟨t.nextUserId, row.2⟩
      nextUserId := t.nextUserId + 1
      userIds := by
        rw [hitems, List.map_append]
        refine pairwise_concat t.userIds fun k hk => ?_
        obtain ⟨p, hp, rfl⟩ := List.mem_map.mp hk
        exact t.userIds_lt p hp
      userIds_lt := by
        intro p hp
        rw [hitems] at hp
        rcases List.mem_append.mp hp with hp | hp
        · exact Nat.lt_succ_of_lt (t.userIds_lt p hp)
        · rw [List.mem_singleton.mp hp]
          exact Nat.lt_succ_self _
      owned := by
        intro p hp
        obtain ⟨q, hq, hid⟩ := t.owned p hp
        exact ⟨q, hitems ▸ List.mem_append_left _ hq, hid⟩ }

/-- Insert an entry; its user must be there, and its key be new. -/
def createEntry (t : Tables) (x : NewEntry) : Except SmError Tables :=
  if h : t.entries.contains (x.userId, x.key) then .error .database
  else if hu : ∃ q ∈ t.users.items, q.2.id = x.userId then
    have hitems : (t.entries.set (x.userId, x.key)
        ⟨t.nextEntryId, x.value, x.expireAt, t.now⟩).items
        = t.entries.items
          ++ [((x.userId, x.key), ⟨t.nextEntryId, x.value, x.expireAt, t.now⟩)] := by
      have hnone := Dict.contains_eq_false.mp (Bool.not_eq_true _ ▸ h)
      rw [Dict.set_of_get?_none hnone, Dict.items_putLast_of_get? hnone]
    .ok { t with
      entries := t.entries.set (x.userId, x.key) ⟨t.nextEntryId, x.value, x.expireAt, t.now⟩
      nextEntryId := t.nextEntryId + 1
      clock := t.clock.tail
      entryIds := by
        rw [hitems, List.map_append]
        refine pairwise_concat t.entryIds fun k hk => ?_
        obtain ⟨p, hp, rfl⟩ := List.mem_map.mp hk
        exact t.entryIds_lt p hp
      entryIds_lt := by
        intro p hp
        rw [hitems] at hp
        rcases List.mem_append.mp hp with hp | hp
        · exact Nat.lt_succ_of_lt (t.entryIds_lt p hp)
        · rw [List.mem_singleton.mp hp]
          exact Nat.lt_succ_self _
      owned := by
        intro p hp
        rw [hitems] at hp
        rcases List.mem_append.mp hp with hp | hp
        · exact t.owned p hp
        · rw [List.mem_singleton.mp hp]
          exact hu }
  else .error .database

/-- Insert a session; the client id must be new. -/
def createSession (t : Tables) (row : String × SessionRow) : Except SmError Tables :=
  if t.sessions.contains row.1 then .error .database
  else .ok { t with sessions := t.sessions.set row.1 row.2 }

/-- `objects.all().delete()` on all three tables. The ids go on. -/
def deleteAll (t : Tables) : Tables :=
  { nextUserId := t.nextUserId, nextEntryId := t.nextEntryId, clock := t.clock }

/-- The ids of the users with one of these names. -/
def idsOf (t : Tables) (names : List String) : List (String × Nat) :=
  (t.users.items.filter fun p => p.1 ∈ names).map fun p => (p.1, p.2.id)

/-! ## Queries -/

/-- Names and hashes, by id. -/
def loadAllUsers (t : Tables) : List (String × String) :=
  t.users.items.map fun p => (p.1, p.2.passwordHash)

/-- The name of the user with this id. -/
def nameOf (t : Tables) (id : Nat) : Option String :=
  (t.users.items.find? fun p => p.2.id = id).map Prod.fst

/-- `order_by("updated_at", "id")` -/
def stamp (p : (Nat × String) × StoredEntry) : Int ×ₗ Nat := toLex (p.2.updatedAt, p.2.id)

/-- Value and expiry time of a key, if it is stored. -/
def getEntryWithExpiry (username key : String) (t : Tables) : Option (String × Option Int) :=
  (t.users.get? username).bind fun user =>
    (t.entries.get? (user.id, key)).map fun row => (row.value, row.expireAt)

/-- The `limit` most recently written entries of a user, oldest first. -/
def getAllEntries (username : String) (limit : Nat) (t : Tables) : Dict String String :=
  match t.users.get? username with
  | some user =>
    let newest := (sortOnDesc stamp (t.entries.items.filter fun p => p.1.1 = user.id)).take limit
    Dict.ofList (newest.reverse.map fun p => (p.1.2, p.2.value))
  | none => Dict.empty

/-- All rows as snapshot lines: users and sessions by id, entries by the time
they were written, joined with the name of their user. -/
def dumpTo (t : Tables) : List SnapshotRow :=
  t.loadAllUsers.map (fun p => .user p.1 p.2) ++
  (sortOn stamp t.entries.items).filterMap (fun p =>
    (t.nameOf p.1.1).map fun username => .entry username p.1.2 p.2.value p.2.expireAt) ++
  t.sessions.items.map (fun p => .session p.1 p.2.lastSeq p.2.result p.2.lastIndex)

end Tables

/-! ## The loader -/

/-- The tables while a snapshot is read, the ids of the users written so far
and the three buffers. -/
structure Loading where
  tables : Tables
  userIds : Dict String Nat := Dict.empty
  users : List (String × String) := []
  entries : List NewEntry := []
  sessions : List (String × SessionRow) := []

namespace Loading

def flushUsers (l : Loading) : Except SmError Loading := do
  let tables ← l.users.foldlM Tables.createUser l.tables
  let names := l.users.map Prod.fst
  return { l with
    tables
    userIds := (tables.idsOf names).foldl (fun d p => d.set p.1 p.2) l.userIds
    users := [] }

def flushEntries (l : Loading) : Except SmError Loading := do
  let tables ← l.entries.foldlM Tables.createEntry l.tables
  return { l with tables, entries := [] }

def flushSessions (l : Loading) : Except SmError Loading := do
  let tables ← l.sessions.foldlM Tables.createSession l.tables
  return { l with tables, sessions := [] }

/-- `if users: flush_users()` -/
def flushPending (l : Loading) : Except SmError Loading :=
  if l.users = [] then .ok l else l.flushUsers

def addUser (l : Loading) (row : String × String) : Loading := { l with users := l.users ++ [row] }

def addEntry (l : Loading) (x : NewEntry) : Loading := { l with entries := l.entries ++ [x] }

def addSession (l : Loading) (row : String × SessionRow) : Loading :=
  { l with sessions := l.sessions ++ [row] }

def takeRow (batchSize : Nat) (l : Loading) : SnapshotRow → Except SmError Loading
  | .user username passwordHash =>
    let l := l.addUser (username, passwordHash)
    if batchSize ≤ l.users.length then l.flushUsers else .ok l
  | .entry username key value expireAt => do
    let l ← l.flushPending
    match l.userIds.get? username with
    | none => .error (.keyError username)
    | some userId =>
      let l := l.addEntry ⟨userId, key, value, expireAt⟩
      if batchSize ≤ l.entries.length then l.flushEntries else .ok l
  | .session clientId seq result index =>
    let l := l.addSession (clientId, ⟨seq, result, index⟩)
    if batchSize ≤ l.sessions.length then l.flushSessions else .ok l

def takeLine (batchSize : Nat) (l : Loading) : SnapshotLine → Except SmError Loading
  | .row row => l.takeRow batchSize row
  | .skipped => .ok l
  | .malformed => .error .malformed

end Loading

/-- Overwrite everything with a snapshot, in one transaction; how many users
are there? -/
def Tables.replaceFrom (batchSize : Nat) (lines : List SnapshotLine) (t : Tables) :
    Except SmError (Nat × Tables) := do
  let l ← lines.foldlM (Loading.takeLine batchSize) { tables := t.deleteAll }
  let l ← l.flushPending
  let l ← l.flushEntries
  let l ← l.flushSessions
  return (l.userIds.size, l.tables)

/-! ## Writing rows -/

/-- Setting pairs, no key twice, one after the other. -/
theorem get?_setAll {κ υ : Type} [DecidableEq κ] {l : List (κ × υ)} (hn : (l.map Prod.fst).Nodup)
    (d : Dict κ υ) (k : κ) :
    (l.foldl (fun d p => d.set p.1 p.2) d).get? k = (l.lookup k).or (d.get? k) := by
  induction l generalizing d with
  | nil => rfl
  | cons p l ih =>
      obtain ⟨j, v⟩ := p
      rw [List.map_cons, List.nodup_cons] at hn
      rw [List.foldl_cons, ih hn.2, Dict.get?_set, List.lookup_cons]
      by_cases hk : k = j
      · subst hk
        have hnone : l.lookup k = none := by
          rw [Option.eq_none_iff_forall_ne_some]
          intro w hw
          exact hn.1 (List.mem_map.mpr ⟨(k, w), (Dict.lookup_eq_some hn.2).mp hw, rfl⟩)
        simp [hnone]
      · rw [if_neg hk, beq_eq_false_iff_ne.mpr hk]

namespace Tables

variable {t t' : Tables}

/-- The entries as what they were made from, by id. -/
def rows (t : Tables) : List NewEntry :=
  t.entries.items.map fun p => ⟨p.1.1, p.1.2, p.2.value, p.2.expireAt⟩

/-- The entries were written at the first readings of the clock `c`, and the
others are still to come. -/
structure Timed (c : List Int) (t : Tables) : Prop where
  times : t.entries.items.map (fun p => p.2.updatedAt) = (List.range t.entries.size).map (c.getD · 0)
  clock : t.clock = c.drop t.entries.size

theorem mem_loadAllUsers {username passwordHash : String} :
    (username, passwordHash) ∈ t.loadAllUsers
      ↔ ∃ row, t.users.get? username = some row ∧ row.passwordHash = passwordHash := by
  simp only [loadAllUsers, List.mem_map, Prod.exists, Prod.mk.injEq, Dict.get?_eq_some]
  constructor
  · rintro ⟨u, row, hm, rfl, rfl⟩
    exact ⟨row, hm, rfl⟩
  · rintro ⟨row, hm, rfl⟩
    exact ⟨username, row, hm, rfl, rfl⟩

theorem createUser_ok {row : String × String} (hnew : t.users.get? row.1 = none) :
    ∃ t', t.createUser row = .ok t' ∧ t'.loadAllUsers = t.loadAllUsers ++ [row] ∧
      t'.users = t.users.set row.1 ⟨t.nextUserId, row.2⟩ ∧ t'.entries = t.entries ∧
      t'.sessions = t.sessions ∧ t'.clock = t.clock := by
  unfold createUser
  rw [dif_neg (by simp [Dict.contains, hnew])]
  refine ⟨_, rfl, ?_, rfl, rfl, rfl, rfl⟩
  simp only [loadAllUsers]
  rw [Dict.set_of_get?_none hnew, Dict.items_putLast_of_get? hnew, List.map_append]
  rfl

/-- New users are all created, and nothing else changes. -/
theorem createUsers_ok {rows : List (String × String)} (hnew : ∀ r ∈ rows, t.users.get? r.1 = none)
    (hn : (rows.map Prod.fst).Nodup) :
    ∃ t', rows.foldlM createUser t = .ok t' ∧ t'.loadAllUsers = t.loadAllUsers ++ rows ∧
      (∀ u, u ∉ rows.map Prod.fst → t'.users.get? u = t.users.get? u) ∧
      t'.entries = t.entries ∧ t'.sessions = t.sessions ∧ t'.clock = t.clock := by
  induction rows generalizing t with
  | nil => exact ⟨t, rfl, (List.append_nil _).symm, fun _ _ => rfl, rfl, rfl, rfl⟩
  | cons row rows ih =>
      rw [List.map_cons, List.nodup_cons] at hn
      obtain ⟨t₁, hok, husers, hset, hentries, hsessions, hclock⟩ :=
        createUser_ok (hnew row List.mem_cons_self)
      obtain ⟨t₂, hok₂, husers₂, hold₂, hentries₂, hsessions₂, hclock₂⟩ :=
        ih (t := t₁) (fun r hr => by
          have hne : r.1 ≠ row.1 := fun heq => hn.1 (heq ▸ List.mem_map_of_mem hr)
          rw [hset, Dict.get?_set, if_neg hne]
          exact hnew r (List.mem_cons_of_mem row hr)) hn.2
      refine ⟨t₂, ?_, ?_, fun u hu => ?_, hentries₂.trans hentries, hsessions₂.trans hsessions,
        hclock₂.trans hclock⟩
      · rw [List.foldlM_cons, hok]
        exact hok₂
      · rw [husers₂, husers, List.append_assoc]
        rfl
      · rw [List.map_cons, List.mem_cons, not_or] at hu
        rw [hold₂ u hu.2, hset, Dict.get?_set, if_neg hu.1]

theorem lookup_idsOf (t : Tables) (names : List String) (u : String) :
    (t.idsOf names).lookup u = if u ∈ names then (t.users.get? u).map UserRow.id else none := by
  have hn : ((t.idsOf names).map Prod.fst).Nodup := by
    unfold idsOf
    rw [List.map_map]
    exact t.users.nodup.sublist (List.filter_sublist.map _)
  refine Option.ext fun id => ?_
  rw [Dict.lookup_eq_some hn, idsOf, List.mem_map]
  split
  · next hu =>
      rw [Option.map_eq_some_iff]
      constructor
      · rintro ⟨⟨u', row⟩, hm, heq⟩
        obtain ⟨rfl, rfl⟩ := Prod.mk.inj heq
        exact ⟨row, Dict.get?_eq_some.mpr (List.mem_filter.mp hm).1, rfl⟩
      · rintro ⟨row, hrow, rfl⟩
        refine ⟨(u, row), List.mem_filter.mpr ⟨Dict.get?_eq_some.mp hrow, ?_⟩, rfl⟩
        exact decide_eq_true hu
  · next hu =>
      refine iff_of_false ?_ nofun
      rintro ⟨⟨u', row⟩, hm, heq⟩
      obtain ⟨rfl, -⟩ := Prod.mk.inj heq
      exact hu (of_decide_eq_true (List.mem_filter.mp hm).2)

theorem createEntry_ok {x : NewEntry} (hnew : t.entries.get? (x.userId, x.key) = none)
    (hu : ∃ q ∈ t.users.items, q.2.id = x.userId) :
    ∃ t', t.createEntry x = .ok t' ∧ t'.rows = t.rows ++ [x] ∧ t'.users = t.users ∧
      t'.sessions = t.sessions ∧
      (∀ k, k ≠ (x.userId, x.key) → t'.entries.get? k = t.entries.get? k) ∧
      ∀ c, t.Timed c → t'.Timed c := by
  have hitems : (t.entries.set (x.userId, x.key) ⟨t.nextEntryId, x.value, x.expireAt, t.now⟩).items
      = t.entries.items ++ [((x.userId, x.key), ⟨t.nextEntryId, x.value, x.expireAt, t.now⟩)] := by
    rw [Dict.set_of_get?_none hnew, Dict.items_putLast_of_get? hnew]
  have hsize : (t.entries.set (x.userId, x.key)
      ⟨t.nextEntryId, x.value, x.expireAt, t.now⟩).size = t.entries.size + 1 := by
    rw [Dict.set_of_get?_none hnew, Dict.size_putLast_of_get? hnew]
  unfold createEntry
  rw [dif_neg (by simp [Dict.contains, hnew]), dif_pos hu]
  refine ⟨_, rfl, ?_, rfl, rfl, fun k hk => ?_, fun c hc => ⟨?_, ?_⟩⟩
  · simp only [rows]
    rw [hitems, List.map_append]
    rfl
  · exact (Dict.get?_set _ _ _ _).trans (if_neg hk)
  · dsimp only
    rw [hitems, hsize, List.map_append, hc.times, List.range_succ, List.map_append]
    have hnow : t.now = c.getD t.entries.size 0 := by
      rw [now, hc.clock, List.headD_eq_head?_getD, List.head?_drop, List.getD_eq_getElem?_getD]
    rw [hnow]
    rfl
  · dsimp only
    rw [hsize, hc.clock, List.tail_drop]

/-- New entries of known users are all created, and nothing else changes. -/
theorem createEntries_ok {xs : List NewEntry}
    (hnew : ∀ x ∈ xs, t.entries.get? (x.userId, x.key) = none)
    (hn : (xs.map fun x => (x.userId, x.key)).Nodup)
    (hu : ∀ x ∈ xs, ∃ q ∈ t.users.items, q.2.id = x.userId) :
    ∃ t', xs.foldlM createEntry t = .ok t' ∧ t'.rows = t.rows ++ xs ∧ t'.users = t.users ∧
      t'.sessions = t.sessions ∧ ∀ c, t.Timed c → t'.Timed c := by
  induction xs generalizing t with
  | nil => exact ⟨t, rfl, (List.append_nil _).symm, rfl, rfl, fun _ h => h⟩
  | cons x xs ih =>
      rw [List.map_cons, List.nodup_cons] at hn
      obtain ⟨t₁, hok, hrows, husers, hsessions, hold, htimes⟩ :=
        createEntry_ok (hnew x List.mem_cons_self) (hu x List.mem_cons_self)
      obtain ⟨t₂, hok₂, hrows₂, husers₂, hsessions₂, htimes₂⟩ :=
        ih (t := t₁) (fun y hy => by
          have hne : (y.userId, y.key) ≠ (x.userId, x.key) := fun heq =>
            hn.1 (heq ▸ List.mem_map_of_mem hy)
          rw [hold _ hne]
          exact hnew y (List.mem_cons_of_mem x hy)) hn.2
          fun y hy => husers ▸ hu y (List.mem_cons_of_mem x hy)
      refine ⟨t₂, ?_, ?_, husers₂.trans husers, hsessions₂.trans hsessions,
        fun c hc => htimes₂ c (htimes c hc)⟩
      · rw [List.foldlM_cons, hok]
        exact hok₂
      · rw [hrows₂, hrows, List.append_assoc]
        rfl

/-- New sessions are all created, and nothing else changes. -/
theorem createSessions_ok {rows : List (String × SessionRow)}
    (hn : ((t.sessions.items ++ rows).map Prod.fst).Nodup) :
    ∃ t', rows.foldlM createSession t = .ok t' ∧
      t'.sessions.items = t.sessions.items ++ rows ∧ t'.users = t.users ∧ t'.entries = t.entries ∧
      t'.clock = t.clock := by
  induction rows generalizing t with
  | nil => exact ⟨t, rfl, (List.append_nil _).symm, rfl, rfl, rfl⟩
  | cons row rows ih =>
      have hnew : t.sessions.get? row.1 = none := by
        refine Dict.get?_eq_none.mpr fun v hv => ?_
        rw [List.map_append, List.nodup_append] at hn
        exact hn.2.2 row.1 (List.mem_map.mpr ⟨(row.1, v), hv, rfl⟩) row.1 (by simp) rfl
      have hitems : (t.sessions.set row.1 row.2).items = t.sessions.items ++ [row] := by
        rw [Dict.set_of_get?_none hnew, Dict.items_putLast_of_get? hnew]
      obtain ⟨t', hok, hsessions, husers, hentries, hclock⟩ :=
        ih (t := { t with sessions := t.sessions.set row.1 row.2 }) (by
          dsimp only
          rw [hitems, List.append_assoc]
          exact hn)
      refine ⟨t', ?_, ?_, husers, hentries, hclock⟩
      · rw [List.foldlM_cons, createSession, if_neg (by simp [Dict.contains, hnew])]
        exact hok
      · rw [hsessions]
        dsimp only
        rw [hitems, List.append_assoc]
        rfl

end Tables

/-! ## Lists side by side -/

section Related

variable {α β κ κ' : Type} {R : α → β → Prop} {l : List α} {l' : List β}

theorem exists_of_forall₂ (h : List.Forall₂ R l l') {x : α} (hx : x ∈ l) : ∃ y ∈ l', R x y := by
  induction h with
  | nil => cases hx
  | @cons x' y l l' hxy _ ih =>
      rcases List.mem_cons.mp hx with rfl | hx
      · exact ⟨y, List.mem_cons_self, hxy⟩
      · obtain ⟨y', hy', hxy'⟩ := ih hx
        exact ⟨y', List.mem_cons_of_mem y hy', hxy'⟩

theorem map_eq_of_forall₂ {γ : Type} {f : α → γ} {g : β → γ} (h : List.Forall₂ R l l')
    (hfg : ∀ x y, R x y → f x = g y) : l.map f = l'.map g := by
  induction h with
  | nil => rfl
  | cons hxy _ ih => rw [List.map_cons, List.map_cons, hfg _ _ hxy, ih]

/-- Where equal keys on the left mean equal keys on the right, distinct keys
on the right mean distinct keys on the left. -/
theorem nodup_map_of_forall₂ {f : α → κ} {g : β → κ'} (h : List.Forall₂ R l l')
    (hfg : ∀ x y x' y', R x y → R x' y' → f x = f x' → g y = g y') (hn : (l'.map g).Nodup) :
    (l.map f).Nodup := by
  induction h with
  | nil => exact List.nodup_nil
  | @cons x y l l' hxy hrest ih =>
      rw [List.map_cons, List.nodup_cons] at hn ⊢
      refine ⟨fun hm => hn.1 ?_, ih hn.2⟩
      obtain ⟨x', hx', heq⟩ := List.mem_map.mp hm
      obtain ⟨y', hy', hxy'⟩ := exists_of_forall₂ hrest hx'
      rw [← hfg _ _ _ _ hxy' hxy heq]
      exact List.mem_map_of_mem hy'

end Related

/-! ## What has been read -/

/-- An entry with the name of its user, as a line says it. -/
structure NamedEntry where
  username : String
  key : String
  value : String
  expireAt : Option Int

def NamedEntry.row (e : NamedEntry) : SnapshotRow := .entry e.username e.key e.value e.expireAt

/-- Two entries of one key of one user. -/
def NamedEntry.slot (e : NamedEntry) : String × String := (e.username, e.key)

namespace Tables

variable {t t' : Tables}

/-- The line `e` is about the entry `x`. -/
structure Names (t : Tables) (x : NewEntry) (e : NamedEntry) : Prop where
  user : ∃ row, t.users.get? e.username = some row ∧ row.id = x.userId
  key : x.key = e.key
  value : x.value = e.value
  expireAt : x.expireAt = e.expireAt

theorem Names.mono {x : NewEntry} {e : NamedEntry} (h : t.Names x e)
    (hold : ∀ u row, t.users.get? u = some row → t'.users.get? u = some row) : t'.Names x e := by
  obtain ⟨row, hrow, hid⟩ := h.user
  exact { h with user := ⟨row, hold _ _ hrow, hid⟩ }

theorem Names.owner {x : NewEntry} {e : NamedEntry} (h : t.Names x e) :
    ∃ q ∈ t.users.items, q.2.id = x.userId := by
  obtain ⟨row, hrow, hid⟩ := h.user
  exact ⟨(e.username, row), Dict.get?_eq_some.mp hrow, hid⟩

/-- An id is that of one user. -/
theorem eq_of_id {u u' : String} {row row' : UserRow} (h : t.users.get? u = some row)
    (h' : t.users.get? u' = some row') (hid : row.id = row'.id) : u = u' ∧ row = row' := by
  have hn : (t.users.items.map fun p => p.2.id).Nodup := t.userIds.imp Nat.ne_of_lt
  have heq := List.inj_on_of_nodup_map hn (Dict.get?_eq_some.mp h) (Dict.get?_eq_some.mp h') hid
  exact ⟨congrArg Prod.fst heq, congrArg Prod.snd heq⟩

theorem Names.slot_eq {x x' : NewEntry} {e e' : NamedEntry} (h : t.Names x e) (h' : t.Names x' e')
    (heq : (x.userId, x.key) = (x'.userId, x'.key)) : e.slot = e'.slot := by
  obtain ⟨row, hrow, hid⟩ := h.user
  obtain ⟨row', hrow', hid'⟩ := h'.user
  obtain ⟨huser, hkey⟩ := Prod.mk.inj heq
  have hname := (eq_of_id hrow hrow' (hid.trans (huser.trans hid'.symm))).1
  exact Prod.ext hname (h.key.symm.trans (hkey.trans h'.key))

/-- A user has one id. -/
theorem Names.place_eq {x x' : NewEntry} {e e' : NamedEntry} (h : t.Names x e) (h' : t.Names x' e')
    (heq : e.slot = e'.slot) : (x.userId, x.key) = (x'.userId, x'.key) := by
  obtain ⟨row, hrow, hid⟩ := h.user
  obtain ⟨row', hrow', hid'⟩ := h'.user
  obtain ⟨huser, hkey⟩ := Prod.mk.inj heq
  rw [huser, hrow'] at hrow
  rw [← hid, ← hid', Option.some.inj hrow, h.key, h'.key, hkey]

/-- Lines of distinct entries are about distinct keys. -/
theorem slots_nodup {xs : List NewEntry} {es : List NamedEntry} (h : List.Forall₂ t.Names xs es)
    (hn : (xs.map fun x => (x.userId, x.key)).Nodup) : (es.map NamedEntry.slot).Nodup :=
  nodup_map_of_forall₂ h.flip (fun _ _ _ _ h h' heq => h.place_eq h' heq) hn

/-- Entries of distinct lines have distinct places in the table. -/
theorem nodup_of_names {xs : List NewEntry} {es : List NamedEntry} (h : List.Forall₂ t.Names xs es)
    (hn : (es.map NamedEntry.slot).Nodup) : (xs.map fun x => (x.userId, x.key)).Nodup :=
  nodup_map_of_forall₂ h (fun _ _ _ _ h h' heq => h.slot_eq h' heq) hn

end Tables

/-- The rows of each table, followed by those of its buffer, are what has been
read: users `us`, entries `es`, sessions `ss`. -/
structure Loaded (c : List Int) (us : List (String × String)) (es : List NamedEntry)
    (ss : List (String × SessionRow)) (l : Loading) : Prop where
  users : l.tables.loadAllUsers ++ l.users = us
  ids : ∀ u, l.userIds.get? u = (l.tables.users.get? u).map UserRow.id
  entries : List.Forall₂ l.tables.Names (l.tables.rows ++ l.entries) es
  sessions : l.tables.sessions.items ++ l.sessions = ss
  times : l.tables.Timed c

section Loader

variable {c : List Int} {us : List (String × String)} {es : List NamedEntry}
  {ss : List (String × SessionRow)} {l : Loading} {batchSize : Nat}

theorem Loaded.start (t : Tables) : Loaded t.clock [] [] [] { tables := t.deleteAll } where
  users := rfl
  ids _ := rfl
  entries := .nil
  sessions := rfl
  times := ⟨rfl, rfl⟩

/-- Writing the buffer of users. -/
theorem Loaded.flushUsers (h : Loaded c us es ss l) (hn : (us.map Prod.fst).Nodup) :
    ∃ l', l.flushUsers = .ok l' ∧ Loaded c us es ss l' ∧ l'.users = [] ∧ l'.entries = l.entries := by
  rw [← h.users, List.map_append, List.nodup_append] at hn
  have hnew : ∀ r ∈ l.users, l.tables.users.get? r.1 = none := fun r hr => by
    refine Option.eq_none_iff_forall_ne_some.mpr fun row hrow => ?_
    refine hn.2.2 r.1 ?_ r.1 (List.mem_map_of_mem hr) rfl
    exact List.mem_map.mpr ⟨(r.1, row.passwordHash), Tables.mem_loadAllUsers.mpr ⟨row, hrow, rfl⟩, rfl⟩
  obtain ⟨t', hok, husers, hold, hentries, hsessions, hclock⟩ := Tables.createUsers_ok hnew hn.2.1
  have hkeep : ∀ u row, l.tables.users.get? u = some row → t'.users.get? u = some row :=
    fun u row hrow => by
      rw [hold u fun hm => ?_]
      · exact hrow
      · obtain ⟨r, hr, rfl⟩ := List.mem_map.mp hm
        rw [hnew r hr] at hrow
        cases hrow
  have hrows : t'.rows = l.tables.rows := by
    unfold Tables.rows
    rw [hentries]
  have hflush : l.flushUsers = .ok { l with
      tables := t'
      userIds := (t'.idsOf (l.users.map Prod.fst)).foldl (fun d p => d.set p.1 p.2) l.userIds
      users := [] } := by
    rw [Loading.flushUsers, hok]
    rfl
  refine ⟨_, hflush, ?_, rfl, rfl⟩
  refine ⟨?_, fun u => ?_, ?_, ?_, ?_⟩
  · rw [List.append_nil]
    exact husers.trans h.users
  · have hnodup : ((t'.idsOf (l.users.map Prod.fst)).map Prod.fst).Nodup := by
      unfold Tables.idsOf
      rw [List.map_map]
      exact t'.users.nodup.sublist (List.filter_sublist.map _)
    dsimp only
    rw [get?_setAll hnodup, Tables.lookup_idsOf, h.ids]
    split
    · next hm =>
        obtain ⟨r, hr, rfl⟩ := List.mem_map.mp hm
        rw [hnew r hr, Option.map_none, Option.or_none]
    · next hm => rw [hold u hm, Option.none_or]
  · dsimp only
    rw [hrows]
    exact h.entries.imp fun _ _ hxe => hxe.mono hkeep
  · dsimp only
    rw [hsessions]
    exact h.sessions
  · refine ⟨?_, ?_⟩
    · rw [hentries]
      exact h.times.times
    · rw [hclock, hentries]
      exact h.times.clock

/-- Writing the buffer of entries. -/
theorem Loaded.flushEntries (h : Loaded c us es ss l) (hn : (es.map NamedEntry.slot).Nodup) :
    ∃ l', l.flushEntries = .ok l' ∧ Loaded c us es ss l' ∧ l'.users = l.users ∧ l'.entries = [] := by
  have hnodup := Tables.nodup_of_names h.entries hn
  rw [List.map_append, List.nodup_append] at hnodup
  have hnew : ∀ x ∈ l.entries, l.tables.entries.get? (x.userId, x.key) = none := fun x hx => by
    refine Option.eq_none_iff_forall_ne_some.mpr fun row hrow => ?_
    refine hnodup.2.2 (x.userId, x.key) ?_ _ (List.mem_map_of_mem hx) rfl
    refine List.mem_map.mpr ⟨⟨x.userId, x.key, row.value, row.expireAt⟩, ?_, rfl⟩
    exact List.mem_map.mpr ⟨((x.userId, x.key), row), Dict.get?_eq_some.mp hrow, rfl⟩
  have howner : ∀ x ∈ l.entries, ∃ q ∈ l.tables.users.items, q.2.id = x.userId := fun x hx => by
    obtain ⟨e, -, hxe⟩ := exists_of_forall₂ h.entries (List.mem_append_right _ hx)
    exact hxe.owner
  obtain ⟨t', hok, hrows, husers, hsessions, htimes⟩ :=
    Tables.createEntries_ok hnew hnodup.2.1 howner
  have hflush : l.flushEntries = .ok { l with tables := t', entries := [] } := by
    rw [Loading.flushEntries, hok]
    rfl
  refine ⟨_, hflush, ?_, rfl, rfl⟩
  refine ⟨?_, fun u => ?_, ?_, ?_, htimes c h.times⟩
  · dsimp only
    rw [Tables.loadAllUsers, husers]
    exact h.users
  · dsimp only
    rw [husers]
    exact h.ids u
  · dsimp only
    rw [hrows, List.append_nil]
    exact h.entries.imp fun _ _ hxe => hxe.mono fun u row hrow => husers ▸ hrow
  · dsimp only
    rw [hsessions]
    exact h.sessions

/-- Writing the buffer of sessions. -/
theorem Loaded.flushSessions (h : Loaded c us es ss l) (hn : (ss.map Prod.fst).Nodup) :
    ∃ l', l.flushSessions = .ok l' ∧ Loaded c us es ss l' ∧ l'.users = l.users ∧
      l'.entries = l.entries ∧ l'.sessions = [] := by
  rw [← h.sessions] at hn
  obtain ⟨t', hok, hsessions, husers, hentries, hclock⟩ := Tables.createSessions_ok hn
  have hrows : t'.rows = l.tables.rows := by
    unfold Tables.rows
    rw [hentries]
  have hflush : l.flushSessions = .ok { l with tables := t', sessions := [] } := by
    rw [Loading.flushSessions, hok]
    rfl
  refine ⟨_, hflush, ?_, rfl, rfl, rfl⟩
  refine ⟨?_, fun u => ?_, ?_, ?_, ?_⟩
  · dsimp only
    rw [Tables.loadAllUsers, husers]
    exact h.users
  · dsimp only
    rw [husers]
    exact h.ids u
  · dsimp only
    rw [hrows]
    exact h.entries.imp fun _ _ hxe => hxe.mono fun u row hrow => husers ▸ hrow
  · rw [List.append_nil]
    exact hsessions.trans h.sessions
  · refine ⟨?_, ?_⟩
    · rw [hentries]
      exact h.times.times
    · rw [hclock, hentries]
      exact h.times.clock

theorem Loaded.flushPending (h : Loaded c us es ss l) (hn : (us.map Prod.fst).Nodup) :
    ∃ l', l.flushPending = .ok l' ∧ Loaded c us es ss l' ∧ l'.users = [] := by
  unfold Loading.flushPending
  by_cases hempty : l.users = []
  · rw [if_pos hempty]
    exact ⟨l, rfl, h, hempty⟩
  · rw [if_neg hempty]
    obtain ⟨l', hok, h', husers, -⟩ := h.flushUsers hn
    exact ⟨l', hok, h', husers⟩

/-! ## Lines -/

theorem Loaded.takeUser (h : Loaded c us es ss l) {p : String × String}
    (hn : ((us ++ [p]).map Prod.fst).Nodup) :
    ∃ l', l.takeRow batchSize (.user p.1 p.2) = .ok l' ∧ Loaded c (us ++ [p]) es ss l' := by
  have h₁ : Loaded c (us ++ [p]) es ss (l.addUser p) :=
    { h with
      users := by
        rw [← h.users, List.append_assoc]
        rfl }
  simp only [Loading.takeRow]
  split
  · obtain ⟨l', hok, h', -⟩ := h₁.flushUsers hn
    exact ⟨l', hok, h'⟩
  · exact ⟨_, rfl, h₁⟩

theorem Loaded.takeEntry (h : Loaded c us es ss l) (hn : (us.map Prod.fst).Nodup) {e : NamedEntry}
    (hu : e.username ∈ us.map Prod.fst) (hslots : ((es ++ [e]).map NamedEntry.slot).Nodup) :
    ∃ l', l.takeRow batchSize e.row = .ok l' ∧ Loaded c us (es ++ [e]) ss l' := by
  obtain ⟨l₁, hok₁, h₁, hempty⟩ := h.flushPending hn
  -- its user has been written by now, whichever flush did it
  have husers : l₁.tables.loadAllUsers = us := by
    rw [← h₁.users, hempty, List.append_nil]
  obtain ⟨row, hrow⟩ : ∃ row, l₁.tables.users.get? e.username = some row := by
    rw [← husers] at hu
    obtain ⟨⟨u, passwordHash⟩, hm, rfl⟩ := List.mem_map.mp hu
    obtain ⟨row, hrow, -⟩ := Tables.mem_loadAllUsers.mp hm
    exact ⟨row, hrow⟩
  have hid : l₁.userIds.get? e.username = some row.id := by
    rw [h₁.ids, hrow]
    rfl
  have h₂ : Loaded c us (es ++ [e]) ss (l₁.addEntry ⟨row.id, e.key, e.value, e.expireAt⟩) :=
    { h₁ with
      entries := by
        simp only [Loading.addEntry]
        rw [← List.append_assoc]
        exact List.rel_append h₁.entries (.cons ⟨⟨row, hrow, rfl⟩, rfl, rfl, rfl⟩ .nil) }
  have htake : l.takeRow batchSize e.row
      = if batchSize ≤ (l₁.addEntry ⟨row.id, e.key, e.value, e.expireAt⟩).entries.length then
          (l₁.addEntry ⟨row.id, e.key, e.value, e.expireAt⟩).flushEntries
        else .ok (l₁.addEntry ⟨row.id, e.key, e.value, e.expireAt⟩) := by
    unfold NamedEntry.row Loading.takeRow
    dsimp only
    rw [hok₁]
    change (match l₁.userIds.get? e.username with
      | none => _
      | some userId => _) = _
    rw [hid]
  rw [htake]
  split
  · obtain ⟨l', hok, h', -⟩ := h₂.flushEntries hslots
    exact ⟨l', hok, h'⟩
  · exact ⟨_, rfl, h₂⟩

theorem Loaded.takeSession (h : Loaded c us es ss l) {p : String × SessionRow}
    (hn : ((ss ++ [p]).map Prod.fst).Nodup) :
    ∃ l', l.takeRow batchSize (.session p.1 p.2.lastSeq p.2.result p.2.lastIndex) = .ok l' ∧
      Loaded c us es (ss ++ [p]) l' := by
  have h₁ : Loaded c us es (ss ++ [p]) (l.addSession p) :=
    { h with
      sessions := by
        rw [← h.sessions, List.append_assoc]
        rfl }
  change ∃ l', (if batchSize ≤ (l.addSession p).sessions.length then (l.addSession p).flushSessions
    else .ok (l.addSession p)) = .ok l' ∧ _
  split
  · obtain ⟨l', hok, h', -⟩ := h₁.flushSessions hn
    exact ⟨l', hok, h'⟩
  · exact ⟨_, rfl, h₁⟩

end Loader

/-- Lines of one kind, each of which adds its item to what has been read. -/
theorem take_all {α : Type} {batchSize : Nat} {P : List α → Loading → Prop} {toRow : α → SnapshotRow}
    {items : List α} {Q : List α → Prop} (hinit : ∀ done x, Q (done ++ [x]) → Q done)
    (hstep : ∀ done x l, Q (done ++ [x]) → P done l →
      ∃ l', l.takeRow batchSize (toRow x) = .ok l' ∧ P (done ++ [x]) l')
    (hitems : Q items) {l : Loading} (h : P [] l) :
    ∃ l', (items.map fun x => SnapshotLine.row (toRow x)).foldlM (Loading.takeLine batchSize) l
      = .ok l' ∧ P items l' := by
  induction items using List.reverseRecOn with
  | nil => exact ⟨l, rfl, h⟩
  | append_singleton items x ih =>
      obtain ⟨l₁, hok₁, h₁⟩ := ih (hinit items x hitems)
      obtain ⟨l₂, hok₂, h₂⟩ := hstep items x l₁ hitems h₁
      refine ⟨l₂, ?_, h₂⟩
      rw [List.map_append, List.foldlM_append, hok₁]
      have hline : Loading.takeLine batchSize l₁ (.row (toRow x)) = .ok l₂ := hok₂
      change List.foldlM (Loading.takeLine batchSize) l₁ [SnapshotLine.row (toRow x)] = _
      rw [List.foldlM_cons, hline]
      rfl

/-- Writing what is left in the buffers. -/
theorem Loaded.finish {c : List Int} {us : List (String × String)} {es : List NamedEntry}
    {ss : List (String × SessionRow)} {l : Loading} (h : Loaded c us es ss l)
    (hus : (us.map Prod.fst).Nodup) (hes : (es.map NamedEntry.slot).Nodup)
    (hss : (ss.map Prod.fst).Nodup) :
    ∃ t', (do
        let l ← l.flushPending
        let l ← l.flushEntries
        let l ← l.flushSessions
        return (l.userIds.size, l.tables)) = Except.ok (us.length, t') ∧
      t'.loadAllUsers = us ∧ List.Forall₂ t'.Names t'.rows es ∧ t'.sessions.items = ss ∧
      t'.Timed c := by
  obtain ⟨l₄, hok₄, h₄, husers₄⟩ := h.flushPending hus
  obtain ⟨l₅, hok₅, h₅, husers₅, hentries₅⟩ := h₄.flushEntries hes
  obtain ⟨l₆, hok₆, h₆, husers₆, hentries₆, hsessions₆⟩ := h₅.flushSessions hss
  have hall : l₆.tables.loadAllUsers = us := by
    rw [← h₆.users, husers₆, husers₅, husers₄, List.append_nil]
  have hsize : l₆.userIds.size = us.length := by
    have hsame : l₆.userIds.size = (l₆.tables.users.mapValues UserRow.id).size :=
      Dict.size_of_get? fun u => by rw [h₆.ids, Dict.get?_mapValues]
    rw [hsame, ← hall]
    simp [Dict.size, Dict.mapValues, Tables.loadAllUsers]
  refine ⟨l₆.tables, ?_, hall, ?_, ?_, h₆.times⟩
  · rw [hok₄]
    change (l₄.flushEntries >>= _) = _
    rw [hok₅]
    change (l₅.flushSessions >>= _) = _
    rw [hok₆, ← hsize]
    rfl
  · have := h₆.entries
    rw [hentries₆, hentries₅, List.append_nil] at this
    exact this
  · rw [← h₆.sessions, hsessions₆, List.append_nil]

/-- What `replace_from` makes of users, entries and sessions, each with its
own names and keys and every entry with a user. -/
theorem replaceFrom_loads (batchSize : Nat) (t : Tables) {us : List (String × String)}
    {es : List NamedEntry} {ss : List (String × SessionRow)} (hus : (us.map Prod.fst).Nodup)
    (hes : (es.map NamedEntry.slot).Nodup) (howned : ∀ e ∈ es, e.username ∈ us.map Prod.fst)
    (hss : (ss.map Prod.fst).Nodup) :
    ∃ t', t.replaceFrom batchSize ((us.map (fun p => SnapshotRow.user p.1 p.2) ++
        es.map NamedEntry.row ++
        ss.map fun p => SnapshotRow.session p.1 p.2.lastSeq p.2.result p.2.lastIndex).map .row)
          = .ok (us.length, t') ∧
      t'.loadAllUsers = us ∧ List.Forall₂ t'.Names t'.rows es ∧ t'.sessions.items = ss ∧
      t'.Timed t.clock := by
  have hsub {α κ : Type} {f : α → κ} {done : List α} {x : α} (h : ((done ++ [x]).map f).Nodup) :
      (done.map f).Nodup :=
    h.sublist ((List.sublist_append_left done [x]).map f)
  obtain ⟨l₁, hok₁, h₁⟩ := take_all (P := fun us l => Loaded t.clock us [] [] l) (Q := fun us => (us.map Prod.fst).Nodup)
    (fun _ _ h => hsub h) (fun _ _ _ hn h => h.takeUser hn) hus (Loaded.start t)
  obtain ⟨l₂, hok₂, h₂⟩ := take_all (P := fun es l => Loaded t.clock us es [] l)
    (Q := fun es => (es.map NamedEntry.slot).Nodup ∧ ∀ e ∈ es, e.username ∈ us.map Prod.fst)
    (fun _ _ h => ⟨hsub h.1, fun e he => h.2 e (List.mem_append_left _ he)⟩)
    (fun _ _ _ hn h => h.takeEntry hus (hn.2 _ (by simp)) hn.1) ⟨hes, howned⟩ h₁
  obtain ⟨l₃, hok₃, h₃⟩ := take_all (P := fun ss l => Loaded t.clock us es ss l) (Q := fun ss => (ss.map Prod.fst).Nodup)
    (fun _ _ h => hsub h) (fun _ _ _ hn h => h.takeSession hn) hss h₂
  obtain ⟨t', hok, h'⟩ := h₃.finish hus hes hss
  refine ⟨t', ?_, h'⟩
  unfold Tables.replaceFrom
  simp only [List.map_append, List.map_map, List.foldlM_append]
  change ((((us.map fun p => SnapshotLine.row (.user p.1 p.2)).foldlM
    (Loading.takeLine batchSize) { tables := t.deleteAll } >>= _) >>= _) >>= _) = _
  rw [hok₁]
  change (((es.map fun e => SnapshotLine.row e.row).foldlM
    (Loading.takeLine batchSize) l₁ >>= _) >>= _) = _
  rw [hok₂]
  change ((ss.map fun p => SnapshotLine.row
    (.session p.1 p.2.lastSeq p.2.result p.2.lastIndex)).foldlM
      (Loading.takeLine batchSize) l₂ >>= _) = _
  rw [hok₃]
  exact hok

/-! ## What a dump says -/

namespace Tables

variable {t : Tables} {es : List NamedEntry}

/-- A row as what it was made from. -/
def made (p : (Nat × String) × StoredEntry) : NewEntry := ⟨p.1.1, p.1.2, p.2.value, p.2.expireAt⟩

/-- The entries with the names of their users, oldest first. -/
def named (t : Tables) : List NamedEntry :=
  (sortOn stamp t.entries.items).filterMap fun p =>
    (t.nameOf p.1.1).map fun username => ⟨username, p.1.2, p.2.value, p.2.expireAt⟩

theorem nameOf_eq {u : String} {row : UserRow} (h : t.users.get? u = some row) :
    t.nameOf row.id = some u := by
  have hmem := Dict.get?_eq_some.mp h
  unfold nameOf
  cases hfind : t.users.items.find? fun p => p.2.id = row.id with
  | none => exact absurd (List.find?_eq_none.mp hfind _ hmem) (by simp)
  | some q =>
      have hid : q.2.id = row.id := of_decide_eq_true (List.find?_some hfind :)
      have hq := Dict.get?_eq_some.mpr (show (q.1, q.2) ∈ t.users.items from List.mem_of_find?_eq_some hfind)
      rw [Option.map_some, (eq_of_id hq h hid).1]

/-- Every entry finds its user. -/
theorem names_filterMap {l : List ((Nat × String) × StoredEntry)} (hl : ∀ p ∈ l, p ∈ t.entries.items) :
    List.Forall₂ t.Names (l.map made) (l.filterMap fun p =>
      (t.nameOf p.1.1).map fun username => ⟨username, p.1.2, p.2.value, p.2.expireAt⟩) := by
  induction l with
  | nil => exact .nil
  | cons p l ih =>
      obtain ⟨q, hq, hid⟩ := t.owned p (hl p List.mem_cons_self)
      have hget := Dict.get?_eq_some.mpr (show (q.1, q.2) ∈ t.users.items from hq)
      have hname := nameOf_eq hget
      rw [hid] at hname
      rw [List.map_cons, List.filterMap_cons, hname]
      exact .cons ⟨⟨q.2, hget, hid⟩, rfl, rfl, rfl⟩ (ih fun p' hp' => hl p' (List.mem_cons_of_mem p hp'))

theorem names_named (t : Tables) :
    List.Forall₂ t.Names ((sortOn stamp t.entries.items).map made) t.named :=
  names_filterMap fun _ hp => (sortOn_perm stamp _).mem_iff.mp hp

theorem dumpTo_eq (t : Tables) :
    t.dumpTo = t.loadAllUsers.map (fun p => SnapshotRow.user p.1 p.2) ++ t.named.map NamedEntry.row ++
      t.sessions.items.map fun p => SnapshotRow.session p.1 p.2.lastSeq p.2.result p.2.lastIndex := by
  unfold dumpTo named
  rw [List.map_filterMap]
  simp only [Option.map_map]
  rfl

theorem loadAllUsers_nodup (t : Tables) : (t.loadAllUsers.map Prod.fst).Nodup := by
  unfold loadAllUsers
  rw [List.map_map]
  exact t.users.nodup

theorem named_slots (t : Tables) : (t.named.map NamedEntry.slot).Nodup := by
  refine slots_nodup t.names_named ?_
  rw [List.map_map]
  exact ((sortOn_perm stamp t.entries.items).map Prod.fst).nodup_iff.mpr t.entries.nodup

theorem named_owned (t : Tables) : ∀ e ∈ t.named, e.username ∈ t.loadAllUsers.map Prod.fst := by
  intro e he
  obtain ⟨x, -, hxe⟩ := exists_of_forall₂ t.names_named.flip he
  obtain ⟨row, hrow, -⟩ := Names.user hxe
  exact List.mem_map.mpr ⟨(e.username, row.passwordHash), mem_loadAllUsers.mpr ⟨row, hrow, rfl⟩, rfl⟩

/-! ## What the queries say -/

/-- A key is stored if a line of the entries is about it. -/
theorem getEntryWithExpiry_eq {xs : List NewEntry} (h : List.Forall₂ t.Names xs es)
    (hxs : ∀ x, x ∈ xs ↔ x ∈ t.rows) {u k v : String} {expireAt : Option Int} :
    t.getEntryWithExpiry u k = some (v, expireAt) ↔ ⟨u, k, v, expireAt⟩ ∈ es := by
  unfold getEntryWithExpiry
  rw [Option.bind_eq_some_iff]
  constructor
  · rintro ⟨user, huser, hentry⟩
    obtain ⟨row, hrow, heq⟩ := Option.map_eq_some_iff.mp hentry
    obtain ⟨rfl, rfl⟩ := Prod.mk.inj heq
    have hx : (⟨user.id, k, row.value, row.expireAt⟩ : NewEntry) ∈ xs :=
      (hxs _).mpr (List.mem_map.mpr ⟨((user.id, k), row), Dict.get?_eq_some.mp hrow, rfl⟩)
    obtain ⟨⟨u', k', v', ex'⟩, he, ⟨user', huser', hid⟩, rfl, rfl, rfl⟩ := exists_of_forall₂ h hx
    rw [(eq_of_id huser huser' hid.symm).1]
    exact he
  · intro he
    obtain ⟨x, hx, ⟨user, huser, hid⟩, hkey, hvalue, hexpiry⟩ := exists_of_forall₂ h.flip he
    obtain ⟨p, hp, rfl⟩ := List.mem_map.mp ((hxs x).mp hx)
    dsimp only at hid hkey hvalue hexpiry
    refine ⟨user, huser, Option.map_eq_some_iff.mpr ⟨p.2, Dict.get?_eq_some.mpr ?_, ?_⟩⟩
    · rw [hid, ← hkey]
      exact hp
    · rw [hvalue, hexpiry]

theorem stamps_nodup (t : Tables) : (t.entries.items.map stamp).Nodup := by
  have hids : (t.entries.items.map fun p => p.2.id).Nodup := t.entryIds.imp Nat.ne_of_lt
  refine List.Nodup.of_map (f := fun s => (ofLex s).2) ?_
  rw [List.map_map]
  exact hids

/-- The entries of a user in the order of `get_all_entries` are those of the
lines, when these are in the order of the stamps. -/
theorem getAllEntries_eq (h : List.Forall₂ t.Names ((sortOn stamp t.entries.items).map made) es)
    (u : String) (limit : Nat) :
    t.getAllEntries u limit =
      if u ∈ t.loadAllUsers.map Prod.fst then
        Dict.ofList ((((es.filter fun e => e.username = u).reverse.take limit).reverse).map
          fun e => (e.key, e.value))
      else Dict.empty := by
  unfold getAllEntries
  cases huser : t.users.get? u with
  | none =>
      rw [if_neg ?_]
      intro hm
      obtain ⟨⟨u', passwordHash⟩, hp, rfl⟩ := List.mem_map.mp hm
      obtain ⟨row, hrow, -⟩ := mem_loadAllUsers.mp hp
      exact nomatch huser.symm.trans hrow
  | some user =>
      rw [if_pos (List.mem_map.mpr ⟨(u, user.passwordHash), mem_loadAllUsers.mpr ⟨user, huser, rfl⟩, rfl⟩)]
      have hmine : ((t.entries.items.filter fun p => p.1.1 = user.id).map stamp).Nodup :=
        t.stamps_nodup.sublist (List.filter_sublist.map stamp)
      have hsort : sortOnDesc stamp (t.entries.items.filter fun p => p.1.1 = user.id)
          = ((sortOn stamp t.entries.items).filter fun p => p.1.1 = user.id).reverse := by
        rw [sortOnDesc_eq_reverse hmine, filter_sortOn _ t.stamps_nodup]
      -- the lines of this user, side by side with its rows
      have hrel : List.Forall₂ (fun p e => t.Names (made p) e) (sortOn stamp t.entries.items) es :=
        List.forall₂_map_left_iff.mp h
      have hown : List.Forall₂ (fun p e => t.Names (made p) e)
          ((sortOn stamp t.entries.items).filter fun p => p.1.1 = user.id)
          (es.filter fun e => e.username = u) := by
        refine List.rel_filter (fun p e hpe => ?_) hrel
        change decide _ = true ↔ decide _ = true
        rw [decide_eq_true_iff, decide_eq_true_iff]
        obtain ⟨user', huser', hid⟩ := hpe.user
        constructor
        · intro heq
          exact (eq_of_id huser' huser (hid.trans heq)).1
        · rintro rfl
          rw [Option.some.inj (huser.symm.trans huser')]
          exact hid.symm
      dsimp only
      rw [hsort]
      refine congrArg Dict.ofList (map_eq_of_forall₂ (List.rel_reverse (List.forall₂_take limit
        (List.rel_reverse hown))) fun p e hpe => ?_)
      exact Prod.ext hpe.key hpe.value

/-- The next `n` readings of the clock do not go back. -/
def ClockAscends (t : Tables) (n : Nat) : Prop :=
  ∀ i j, i ≤ j → j < n → t.clock.getD i 0 ≤ t.clock.getD j 0

/-- Rows written at such readings are in the order of their stamps. -/
theorem sortOn_of_timed {t₀ : Tables} (h : t.Timed t₀.clock) (hc : t₀.ClockAscends t.entries.size) :
    sortOn stamp t.entries.items = t.entries.items := by
  refine sortOn_of_sorted ?_
  have htimes : (t.entries.items.map fun p => p.2.updatedAt).Pairwise (· ≤ ·) := by
    rw [h.times, List.pairwise_map]
    refine List.Pairwise.imp_of_mem ?_ List.pairwise_lt_range
    exact fun {i j} _ hj hlt => hc i j (Nat.le_of_lt hlt) (List.mem_range.mp hj)
  refine ((List.pairwise_map.mp htimes).and (List.pairwise_map.mp t.entryIds)).imp ?_
  rintro a b ⟨htime, hid⟩
  unfold stamp
  rw [Prod.Lex.toLex_le_toLex]
  rcases lt_or_eq_of_le htime with hlt | heq
  · exact Or.inl hlt
  · exact Or.inr ⟨heq, Nat.le_of_lt hid⟩

end Tables

/-! ## Row by row -/

/-- The entries of tables without row ids, as lines say them. -/
def Database.named (db : Database) : List NamedEntry :=
  db.entries.items.map fun p => ⟨p.1.1, p.1.2, p.2.value, p.2.expireAt⟩

section RowByRow

variable {db db' : Database} {c : List Int} {l : Loading}

theorem Database.named_slots (db : Database) : (db.named.map NamedEntry.slot).Nodup := by
  unfold named
  rw [List.map_map]
  exact db.entries.nodup

theorem Database.mem_named {db : Database} {u k v : String} {expireAt : Option Int} :
    ⟨u, k, v, expireAt⟩ ∈ db.named ↔ db.getEntryWithExpiry u k = some (v, expireAt) := by
  unfold named getEntryWithExpiry
  rw [Option.map_eq_some_iff, List.mem_map]
  constructor
  · rintro ⟨⟨⟨u', k'⟩, row⟩, hp, heq⟩
    cases heq
    exact ⟨row, Dict.get?_eq_some.mpr hp, rfl⟩
  · rintro ⟨row, hrow, heq⟩
    cases heq
    exact ⟨((u, k), row), Dict.get?_eq_some.mp hrow, rfl⟩

/-- A row that can be inserted is taken into its buffer. -/
theorem Loaded.takeRow (batchSize : Nat) (h : Loaded c db.users.items db.named db.sessions.items l)
    {row : SnapshotRow} (hok : db.insertRow row = .ok db') :
    ∃ l', l.takeRow batchSize row = .ok l' ∧
      Loaded c db'.users.items db'.named db'.sessions.items l' := by
  cases row with
  | user u passwordHash =>
      simp only [Database.insertRow, Database.saveUser] at hok
      split at hok
      · cases hok
      · rename_i hnew
        obtain rfl := Except.ok.inj hok
        have hnone := Dict.contains_eq_false.mp (Bool.eq_false_of_not_eq_true hnew)
        have hitems : (db.users.set u passwordHash).items = db.users.items ++ [(u, passwordHash)] := by
          rw [Dict.set_of_get?_none hnone, Dict.items_putLast_of_get? hnone]
        have hn := (db.users.set u passwordHash).nodup
        rw [hitems] at hn
        change ∃ l', _ ∧ Loaded c (db.users.set u passwordHash).items db.named db.sessions.items l'
        rw [hitems]
        exact h.takeUser (p := (u, passwordHash)) hn
  | entry u k v e =>
      simp only [Database.insertRow] at hok
      split at hok
      · rename_i huser
        split at hok
        · cases hok
        · rename_i hnew
          obtain rfl := Except.ok.inj hok
          have hnone := Dict.contains_eq_false.mp (Bool.eq_false_of_not_eq_true hnew)
          obtain ⟨husers, hsessions, hnamed⟩ : (db.saveEntry u k v e).users = db.users ∧
              (db.saveEntry u k v e).sessions = db.sessions ∧
              (db.saveEntry u k v e).named = db.named ++ [⟨u, k, v, e⟩] := by
            unfold Database.saveEntry
            rw [dif_pos huser]
            refine ⟨rfl, rfl, ?_⟩
            unfold Database.named
            dsimp only
            rw [Dict.set_of_get?_none hnone, Dict.items_putLast_of_get? hnone, List.map_append]
            rfl
          have hslots := (db.saveEntry u k v e).named_slots
          rw [hnamed] at hslots ⊢
          rw [husers, hsessions]
          exact h.takeEntry (e := ⟨u, k, v, e⟩) db.users.nodup (Dict.contains_iff.mp huser) hslots
      · cases hok
  | session clientId seq result index =>
      simp only [Database.insertRow] at hok
      split at hok
      · cases hok
      · rename_i hnew
        obtain rfl := Except.ok.inj hok
        have hnone := Dict.contains_eq_false.mp (Bool.eq_false_of_not_eq_true hnew)
        have hitems : (db.saveSession clientId seq result index).sessions.items
            = db.sessions.items ++ [(clientId, ⟨seq, result, index⟩)] := by
          unfold Database.saveSession
          dsimp only
          rw [Dict.set_of_get?_none hnone, Dict.items_putLast_of_get? hnone]
        have hn := (db.saveSession clientId seq result index).sessions.nodup
        rw [hitems] at hn ⊢
        exact h.takeSession (p := (clientId, ⟨seq, result, index⟩)) hn

/-- So are all rows of a file. -/
theorem Loaded.takeRows (batchSize : Nat) (h : Loaded c db.users.items db.named db.sessions.items l)
    {rows : List SnapshotRow} (hok : rows.foldlM Database.insertRow db = .ok db') :
    ∃ l', (rows.map SnapshotLine.row).foldlM (Loading.takeLine batchSize) l = .ok l' ∧
      Loaded c db'.users.items db'.named db'.sessions.items l' := by
  induction rows generalizing db l with
  | nil =>
      obtain rfl := Except.ok.inj hok
      exact ⟨l, rfl, h⟩
  | cons row rows ih =>
      rw [List.foldlM_cons] at hok
      cases hrow : db.insertRow row with
      | error e =>
          rw [hrow] at hok
          cases hok
      | ok db₁ =>
          rw [hrow] at hok
          obtain ⟨l₁, hok₁, h₁⟩ := h.takeRow batchSize hrow
          obtain ⟨l', hok', h'⟩ := ih h₁ hok
          refine ⟨l', ?_, h'⟩
          have hline : Loading.takeLine batchSize l (.row row) = .ok l₁ := hok₁
          rw [List.map_cons, List.foldlM_cons, hline]
          exact hok'

/-- A file that loads row by row loads in batches of any size, and leaves the
same users, entries and sessions. -/
theorem replaceFrom_of_rows (batchSize : Nat) (t : Tables) {rows : List SnapshotRow}
    (hok : db.replaceFrom rows = .ok db') :
    ∃ t', t.replaceFrom batchSize (rows.map .row) = .ok (db'.users.size, t') ∧
      t'.loadAllUsers = db'.loadAllUsers ∧
      (∀ username key, t'.getEntryWithExpiry username key = db'.getEntryWithExpiry username key) ∧
      t'.sessions = db'.sessions := by
  have hstart : Loaded t.clock (Database.empty db.clock).users.items (Database.empty db.clock).named
      (Database.empty db.clock).sessions.items { tables := t.deleteAll } := Loaded.start t
  obtain ⟨l, htake, h⟩ := hstart.takeRows batchSize hok
  obtain ⟨t', hfinish, husers, hentries, hsessions, -⟩ :=
    h.finish db'.users.nodup db'.named_slots db'.sessions.nodup
  refine ⟨t', ?_, husers, fun u k => Option.ext fun item => ?_, Dict.ext_items hsessions⟩
  · unfold Tables.replaceFrom
    rw [htake]
    exact hfinish
  · obtain ⟨v, expireAt⟩ := item
    rw [Tables.getEntryWithExpiry_eq hentries fun _ => Iff.rfl, Database.mem_named]

end RowByRow

/-- Loading a dump over any content gives the dumped database back, whatever
the batch size: users, entries and sessions, and the number of users. The
order of the entries is kept as well, provided the clock does not go back
while they are written. -/
theorem replaceFrom_inverts_dumpTo (batchSize : Nat) (t t₀ : Tables) :
    ∃ t', t₀.replaceFrom batchSize (t.dumpTo.map .row) = .ok (t.users.size, t') ∧
      t'.loadAllUsers = t.loadAllUsers ∧
      (∀ username key, t'.getEntryWithExpiry username key = t.getEntryWithExpiry username key) ∧
      t'.sessions = t.sessions ∧
      (t₀.ClockAscends t.entries.size → ∀ username limit,
        t'.getAllEntries username limit = t.getAllEntries username limit) := by
  obtain ⟨t', hok, husers, hentries, hsessions, htimes⟩ :=
    replaceFrom_loads batchSize t₀ t.loadAllUsers_nodup t.named_slots t.named_owned t.sessions.nodup
  have hlen : t.loadAllUsers.length = t.users.size := List.length_map _
  refine ⟨t', ?_, husers, fun u k => Option.ext fun item => ?_, Dict.ext_items hsessions,
    fun hclock u limit => ?_⟩
  · rw [t.dumpTo_eq, hok, hlen]
  · obtain ⟨v, expireAt⟩ := item
    have hperm := (sortOn_perm Tables.stamp t.entries.items).map Tables.made
    rw [Tables.getEntryWithExpiry_eq hentries fun _ => Iff.rfl,
      Tables.getEntryWithExpiry_eq t.names_named fun _ => hperm.mem_iff]
  · have hsize : t'.entries.size = t.entries.size := by
      have h₁ := hentries.length_eq
      have h₂ := t.names_named.length_eq
      rw [List.length_map] at h₂
      have h₃ := (sortOn_perm Tables.stamp t.entries.items).length_eq
      have h₄ : t'.rows.length = t'.entries.items.length := List.length_map _
      exact h₄.symm.trans (h₁.trans (h₂.symm.trans h₃))
    have hsorted := Tables.sortOn_of_timed htimes (hsize ▸ hclock)
    have hnames : List.Forall₂ t'.Names ((sortOn Tables.stamp t'.entries.items).map Tables.made)
        t.named := by
      rw [hsorted]
      exact hentries
    rw [Tables.getAllEntries_eq hnames, Tables.getAllEntries_eq t.names_named, husers]

/-- Two users with entries of one key, written in turn, and a session. -/
def smallTables : Tables where
  users := Dict.ofList [("bob", ⟨1, "h"⟩), ("zoe", ⟨2, "g"⟩)]
  entries := Dict.ofList [((1, "k"), ⟨1, "v", none, 7⟩), ((2, "k"), ⟨2, "w", some 9, 5⟩),
    ((1, "a"), ⟨4, "x", none, 5⟩)]
  sessions := Dict.ofList [("c1", ⟨5, "true", 3⟩)]
  nextUserId := 3
  nextEntryId := 5
  userIds := by decide +kernel
  userIds_lt := by decide +kernel
  entryIds := by decide +kernel
  entryIds_lt := by decide +kernel
  owned := by decide +kernel

/-- Loaded in batches of two, over what is there already. -/
theorem replaceFrom_inverts_dumpTo_small :
    ∃ t', Tables.replaceFrom 2 (smallTables.dumpTo.map .row) { smallTables with clock := [1, 1, 2] }
        = .ok (2, t') ∧
      t'.loadAllUsers = smallTables.loadAllUsers ∧
      (∀ username key, t'.getEntryWithExpiry username key
        = smallTables.getEntryWithExpiry username key) ∧
      t'.sessions = smallTables.sessions ∧
      ∀ username limit, t'.getAllEntries username limit = smallTables.getAllEntries username limit := by
  obtain ⟨t', hok, husers, hentries, hsessions, horder⟩ :=
    replaceFrom_inverts_dumpTo 2 smallTables { smallTables with clock := [1, 1, 2] }
  refine ⟨t', hok, husers, hentries, hsessions, horder fun i j hij hj => ?_⟩
  have hreadings : ∀ j < 3, ∀ i ≤ j, ([1, 1, 2] : List Int).getD i 0 ≤ [1, 1, 2].getD j 0 := by
    decide
  exact hreadings j hj i hij

end KvCache
