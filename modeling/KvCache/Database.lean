import Mathlib.Data.String.Basic
import KvCache.Dict
import KvCache.PyText
import KvCache.RaftTypes

/-!
# The database service

`apps/users/db_service.py` over the three tables of `apps/users/models.py`.
A table is a dictionary from its unique column to the rest of its row, in
the order of the row ids: updating a row keeps its id, inserting one takes
a new id. Strings compare exactly. Every entry belongs to a user of the
user table; the foreign key is the field `owned`.

The time that `auto_now` stores is read from the database clock, a list of
readings still to come about which nothing is assumed, not even order.
-/

namespace KvCache

/-- What goes wrong in the state machine, as the exception that is raised. -/
inductive SmError where
  | valueError (text : String)
  /-- `int()` or the unpacking of a split failed on a command's text -/
  | malformed
  /-- the database refused or failed -/
  | database
  | keyError (key : String)
  | stateLoad (cause : SmError)
deriving DecidableEq

/-- A row of `cache_entries`, without its user and key. -/
structure EntryRow where
  value : String
  expireAt : Option Int
  updatedAt : Int
deriving DecidableEq

/-- A row of `client_sessions`, without its client id. -/
structure SessionRow where
  lastSeq : Int
  /-- JSON -/
  result : String
  lastIndex : Nat
deriving DecidableEq

/-- One JSON line of a snapshot. -/
inductive SnapshotRow where
  | user (username passwordHash : String)
  | entry (username key value : String) (expireAt : Option Int)
  | session (clientId : String) (seq : Int) (result : String) (index : Nat)
deriving DecidableEq

/-- Has a key with this expiry time expired at `atMs`? -/
def expired (expireAt : Option Int) (atMs : Int) : Bool :=
  match expireAt with
  | some t => t ≤ atMs
  | none => false

structure Database where
  users : Dict String String
  entries : Dict (String × String) EntryRow
  sessions : Dict String SessionRow
  clock : List Int
  owned : ∀ p ∈ entries.items, users.contains p.1.1 = true

namespace Database

/-- Tables without rows. -/
def empty (clock : List Int) : Database :=
  ⟨Dict.empty, Dict.empty, Dict.empty, clock, by simp⟩

/-- What the database clock shows next. -/
def now (db : Database) : Int := db.clock.headD 0

/-- Insert a user; the name must be new. -/
def saveUser (username passwordHash : String) (db : Database) : Except SmError Database :=
  if db.users.contains username then .error .database
  else .ok { db with
    users := db.users.set username passwordHash
    owned := by
      intro p hp
      have h := Dict.contains_iff.mp (db.owned p hp)
      obtain ⟨v, hv⟩ := Dict.mem_keys.mp h
      rw [Dict.contains, Dict.get?_set]
      split
      · rfl
      · rw [hv]
        rfl }

def getUser (username : String) (db : Database) : Option String := db.users.get? username

/-- Upsert a key of a user; a user that does not exist is only logged. -/
def saveEntry (username key value : String) (expireAt : Option Int) (db : Database) : Database :=
  if h : db.users.contains username then
    { db with
      entries := db.entries.set (username, key) ⟨value, expireAt, db.now⟩
      clock := db.clock.tail
      owned := by
        rintro ⟨k, row⟩ hp
        rcases Dict.mem_set.mp hp with ⟨rfl, -⟩ | ⟨-, hp⟩
        · exact h
        · exact db.owned _ hp }
  else db

/-- Value and expiry time of a key, if it is stored. -/
def getEntryWithExpiry (username key : String) (db : Database) : Option (String × Option Int) :=
  (db.entries.get? (username, key)).map fun row => (row.value, row.expireAt)

/-- The database with only the entries that satisfy `keep`, for which no
user disappears. -/
def keepEntries (db : Database) (keep : (String × String) × EntryRow → Bool) : Database :=
  { db with
    entries := db.entries.filter keep
    owned := fun p hp => db.owned p (Dict.mem_filter.mp hp).1 }

/-- Delete a key of a user; was there one? -/
def deleteEntry (username key : String) (db : Database) : Bool × Database :=
  (db.users.contains username && db.entries.contains (username, key),
    if db.users.contains username then db.keepEntries (fun p => p.1 ≠ (username, key)) else db)

/-- Set or clear the expiry time of a key; `updated_at` stays. -/
def setExpiry (username key : String) (expireAt : Option Int) (db : Database) : Bool × Database :=
  match h : db.entries.get? (username, key) with
  | none => (false, db)
  | some row =>
    (true, { db with
      entries := db.entries.set (username, key) { row with expireAt }
      owned := by
        rintro ⟨k, row'⟩ hp
        rcases Dict.mem_set.mp hp with ⟨rfl, -⟩ | ⟨-, hp⟩
        · exact db.owned ((username, key), row) (Dict.get?_eq_some.mp h)
        · exact db.owned _ hp })

/-- The rows of a user with their keys, by id. -/
def rowsOf (db : Database) (username : String) : List (String × EntryRow) :=
  db.entries.items.filterMap fun p => if p.1.1 = username then some (p.1.2, p.2) else none

/-- The `limit` most recently written entries of a user, oldest first. -/
def getAllEntries (username : String) (limit : Nat) (db : Database) : Dict String String :=
  if db.users.contains username then
    -- order_by("-updated_at", "-id"): the sort is stable on the reversed ids
    let newest := ((db.rowsOf username).reverse.insertionSort
      fun a b => b.2.updatedAt ≤ a.2.updatedAt).take limit
    Dict.ofList (newest.reverse.map fun p => (p.1, p.2.value))
  else Dict.empty

/-- The expiry times of a user's keys that have one. -/
def getExpiries (username : String) (db : Database) : Dict String Int :=
  Dict.ofList ((db.rowsOf username).filterMap fun p => p.2.expireAt.map (p.1, ·))

/-- The keys of a user that have not expired at `nowMs`, sorted. -/
def listKeys (username : String) (nowMs : Int) (db : Database) : List String :=
  (((db.rowsOf username).filter fun p => !expired p.2.expireAt nowMs).map Prod.fst).insertionSort
    (· ≤ ·)

/-- Delete every key that has expired; how many were there? -/
def deleteExpired (nowMs : Int) (db : Database) : Nat × Database :=
  ((db.entries.items.filter fun p => expired p.2.expireAt nowMs).length,
    db.keepEntries fun p => !expired p.2.expireAt nowMs)

def loadAllUsers (db : Database) : List (String × String) := db.users.items

def loadSessions (db : Database) : List (String × SessionRow) := db.sessions.items

def saveSession (clientId : String) (seq : Int) (result : String) (index : Nat) (db : Database) :
    Database :=
  { db with sessions := db.sessions.set clientId ⟨seq, result, index⟩ }

def deleteSession (clientId : String) (db : Database) : Database :=
  { db with sessions := db.sessions.erase clientId }

/-- All rows as snapshot lines: users and sessions by id, entries by the
time they were written. -/
def dumpTo (db : Database) : List SnapshotRow :=
  db.users.items.map (fun p => .user p.1 p.2) ++
  (db.entries.items.insertionSort fun a b => a.2.updatedAt ≤ b.2.updatedAt).map
    (fun p => .entry p.1.1 p.1.2 p.2.value p.2.expireAt) ++
  db.sessions.items.map (fun p => .session p.1 p.2.lastSeq p.2.result p.2.lastIndex)

/-- Insert one snapshot line. Unique columns stay unique, and the user of
an entry must have come before it. -/
def insertRow (db : Database) : SnapshotRow → Except SmError Database
  | .user username passwordHash => db.saveUser username passwordHash
  | .entry username key value expireAt =>
    if db.users.contains username then
      if db.entries.contains (username, key) then .error .database
      else .ok (db.saveEntry username key value expireAt)
    else .error (.keyError username)
  | .session clientId seq result index =>
    if db.sessions.contains clientId then .error .database
    else .ok (db.saveSession clientId seq result index)

/-- Overwrite everything with a snapshot, in one transaction. -/
def replaceFrom (lines : List SnapshotRow) (db : Database) : Except SmError Database :=
  lines.foldlM insertRow (empty db.clock)

end Database

end KvCache
