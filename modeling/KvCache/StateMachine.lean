import Mathlib.Data.List.MinMax
import KvCache.Database
import KvCache.LruCache
import KvCache.StateWp

/-!
# The replicated state machine

`server/state_machine.py` with `store/store.py`: the users, each user's
keys with their expiry times, and the session table that makes a retried
request run once. With `useDb` the three tables of the database are behind
the RAM stores; without it RAM is all there is.

A method is a computation on the machine that may raise (`M`). Whether a
database call raises is decided by the environment: each call takes the
next element of a list of faults, one list for the calls on the user and
entry tables and one for the calls on the session table, so that any
pattern of failing calls is a pair of lists. A raising call has no effect.

A store is passed along as a value and written back (`putStore`) where the
source changes the object it holds.
-/

namespace KvCache

/-- One user's data in RAM. `expiry` may keep times of evicted keys. -/
structure Store where
  username : String
  passwordHash : String
  cache : LRUCache
  expiry : Dict String Int
deriving DecidableEq

/-- What the session table remembers of a client. -/
structure Session where
  seq : Int
  result : Result
  index : Nat
deriving DecidableEq

/-- The session table: client id to session. -/
abbrev Sessions := Dict String Session

/-- The oldest sessions are forgotten beyond this many. -/
def maxSessions : Nat := 10000

structure CacheStateMachine where
  useDb : Bool
  capacity : Nat
  stores : Dict String Store := Dict.empty
  sessions : Sessions := Dict.empty
  db : Database := Database.empty []
  /-- do the coming calls on users and entries raise? -/
  faults : List Bool := []
  /-- do the coming calls on sessions raise? -/
  sessionFaults : List Bool := []

abbrev M := EStateM SmError CacheStateMachine

/-! ## The database behind the machine -/

/-- A call on the user and entry tables. -/
def dbCall {α : Type} (f : Database → Except SmError (α × Database)) : M α := do
  let m ← get
  set { m with faults := m.faults.tail }
  if m.faults.headD false then throw .database
  match f m.db with
  | .ok (a, db) => do
    modify fun m => { m with db }
    pure a
  | .error e => throw e

/-- A call on the session table. -/
def sessionCall {α : Type} (f : Database → α × Database) : M α := do
  let m ← get
  set { m with sessionFaults := m.sessionFaults.tail }
  if m.sessionFaults.headD false then throw .database
  let (a, db) := f m.db
  modify fun m => { m with db }
  pure a

def dbRead {α : Type} (f : Database → α) : M α := dbCall fun db => .ok (f db, db)

def dbWrite (f : Database → Database) : M Unit := dbCall fun db => .ok ((), f db)

/-! ## Stores -/

/-- The store with the pair put into its cache. -/
def Store.put (s : Store) (key value : String) : Store :=
  { s with cache := s.cache.insert key value }

/-- `store.cache.set(key, value)` -/
def Store.cacheSet (s : Store) (key value : String) : M Store :=
  if key = "" then throw (.valueError "Key cannot be empty") else pure (s.put key value)

/-- The store after `cache.get(key)`, which makes the key the newest. -/
def Store.touch (s : Store) (key : String) : Store :=
  { s with cache := (s.cache.get key).2 }

/-- The store after `cache.delete(key)`. -/
def Store.uncache (s : Store) (key : String) : Store :=
  { s with cache := (s.cache.delete key).2 }

/-- `Store(username, password_hash, capacity)` -/
def newStore (username passwordHash : String) : M Store := do
  let m ← get
  if h : 0 < m.capacity then
    pure { username, passwordHash, cache := LRUCache.empty m.capacity h, expiry := Dict.empty }
  else
    throw (.valueError s!"Capacity must be positive, got {m.capacity}")

/-- Set the expiry time of a key, or forget it. -/
def Store.setExpiry (s : Store) (key : String) (expireAt : Option Int) : Store :=
  { s with
    expiry := match expireAt with
      | some t => s.expiry.set key t
      | none => s.expiry.erase key }

def putStore (username : String) (store : Store) : M Unit :=
  modify fun m => { m with stores := m.stores.set username store }

/-- Put pairs into a store's cache, one after the other. -/
def Store.fill (store : Store) : List (String × String) → M Store
  | [] => pure store
  | (key, value) :: rest => do
    let store ← store.cacheSet key value
    Store.fill store rest

/-- The user's newest keys from the database, as a store. -/
def readStore (username passwordHash : String) : M Store := do
  let m ← get
  let store ← newStore username passwordHash
  let entries ← dbRead (·.getAllEntries username m.capacity)
  let store ← store.fill entries.items
  let expiries ← dbRead (·.getExpiries username)
  pure { store with expiry := expiries.filter fun p => entries.contains p.1 }

def loadUserFromDb (username : String) : M (Option Store) := do
  match ← dbRead (·.getUser username) with
  | none => pure none
  | some passwordHash =>
    let store ← readStore username passwordHash
    let m ← get
    match m.stores.get? username with
    | some store => pure (some store)
    | none =>
      putStore username store
      pure (some store)

/-- The user's store from RAM, or loaded from the database on a miss. -/
def getStore (username : String) : M (Option Store) := do
  let m ← get
  match m.stores.get? username with
  | some store => pure (some store)
  | none => if m.useDb then loadUserFromDb username else pure none

/-- Value and expiry time from RAM, or from the database on a miss, which
warms RAM; and the store as the lookup leaves it. -/
def lookup (store : Store) (username key : String) : M (Option (String × Option Int) × Store) := do
  putStore username (store.touch key)
  match (store.cache.get key).1 with
  | some v => pure (some (v, store.expiry.get? key), store.touch key)
  | none =>
    let m ← get
    if m.useDb then
      match ← dbRead (·.getEntryWithExpiry username key) with
      | none => pure (none, store.touch key)
      | some (v, expireAt) =>
        let warm ← (store.touch key).cacheSet key v
        putStore username (warm.setExpiry key expireAt)
        pure (some (v, expireAt), warm.setExpiry key expireAt)
    else pure (none, store.touch key)

/-! ## Reads -/

/-- The value of what was looked up, unless it has expired. -/
def liveValue (item : Option (String × Option Int)) (atMs : Int) : Option String :=
  item.bind fun p => if expired p.2 atMs then none else some p.1

/-- The value of a key, or none if it is missing or expired. A given time
of 0 counts as none given. -/
def getValue (username key : String) (atMs : Option Int) (nowMs : Int) : M (Option String) := do
  match ← getStore username with
  | none => pure none
  | some store =>
    let (item, _) ← lookup store username key
    pure (liveValue item (atMs.elim nowMs fun t => if t = 0 then nowMs else t))

def has (username key : String) (nowMs : Int) : M Bool := do
  let value ← getValue username key none nowMs
  pure value.isSome

/-- Seconds left of what was looked up, rounded up; -1 without expiry, -2
without a live key. -/
def secondsLeft (item : Option (String × Option Int)) (nowMs : Int) : Int :=
  match item with
  | none => -2
  | some (_, expireAt) =>
    if expired expireAt nowMs then -2
    else match expireAt with
      | none => -1
      | some t => -(-(t - nowMs) / 1000)

def ttl (username key : String) (nowMs : Int) : M Int := do
  match ← getStore username with
  | none => pure (-2)
  | some store =>
    let (item, _) ← lookup store username key
    pure (secondsLeft item nowMs)

/-- The live keys of a store, sorted. -/
def Store.liveKeys (s : Store) (nowMs : Int) : List String :=
  ((s.cache.items.filter fun p => !expired (s.expiry.get? p.1) nowMs).map Prod.fst).insertionSort
    (· ≤ ·)

/-- The names a glob pattern selects, if one is given; `glob` is
`fnmatch.fnmatchcase`. -/
def selectNames (glob : String → String → Bool) (pattern : Option String) (names : List String) :
    List String :=
  match pattern with
  | none => names
  | some p => if p = "" then names else names.filter (glob · p)

/-- The user's live keys, sorted. -/
def keys (glob : String → String → Bool) (username : String) (pattern : Option String)
    (nowMs : Int) : M (List String) := do
  match ← getStore username with
  | none => pure []
  | some store =>
    let m ← get
    if m.useDb then
      let names ← dbRead (·.listKeys username nowMs)
      pure (selectNames glob pattern names)
    else pure (selectNames glob pattern (store.liveKeys nowMs))

/-! ## Writes -/

def applySignup (username passwordHash : String) : M Bool := do
  match ← getStore username with
  | some _ => pure false
  | none =>
    let m ← get
    if m.useDb then
      dbCall fun db => (db.saveUser username passwordHash).map ((), ·)
    let store ← newStore username passwordHash
    putStore username store
    pure true

def applySet (username key value : String) (expireAt : Option Int) : M Bool := do
  match ← getStore username with
  | none => pure false
  | some store =>
    let m ← get
    if m.useDb then dbWrite (·.saveEntry username key value expireAt)
    let store ← store.cacheSet key value
    putStore username (store.setExpiry key expireAt)
    pure true

/-- Did a key exist? An expired one counts as gone, if a time is given. -/
def existedAt (item : Option (String × Option Int)) (atMs : Option Int) : Bool :=
  match item with
  | none => false
  | some (_, expireAt) => !(atMs.any fun t => expired expireAt t)

def applyDelete (username key : String) (atMs : Option Int) : M Bool := do
  match ← getStore username with
  | none => pure false
  | some store =>
    let (item, store) ← lookup store username key
    let m ← get
    if m.useDb then
      let _ ← dbCall fun db => .ok (db.deleteEntry username key)
    putStore username ((store.uncache key).setExpiry key none)
    pure (existedAt item atMs)

def applyExpiry (username key : String) (expireAt : Option Int) (atMs : Int) : M Bool := do
  match ← getStore username with
  | none => pure false
  | some store =>
    let (item, store) ← lookup store username key
    match item with
    | none => pure false
    | some (_, old) =>
      if expired old atMs then pure false
      else if expireAt = none ∧ old = none then pure false
      else do
        let m ← get
        if m.useDb then
          let _ ← dbCall fun db => .ok (db.setExpiry username key expireAt)
        putStore username (store.setExpiry key expireAt)
        pure true

/-- The keys of a store whose expiry time has passed, stored or evicted. -/
def Store.due (s : Store) (atMs : Int) : List String :=
  (s.expiry.items.filter fun p => p.2 ≤ atMs).map Prod.fst

/-- A store without its due keys, and how many of them were in the cache. -/
def Store.sweep (s : Store) (atMs : Int) : Nat × Store :=
  (s.due atMs).foldl (fun acc key =>
    (acc.1 + (acc.2.cache.delete key).1.toNat, (acc.2.uncache key).setExpiry key none)) (0, s)

/-- Sweep every store; how many keys were in RAM? -/
def sweepStores (atMs : Int) : M Nat := do
  let m ← get
  set { m with stores := m.stores.mapValues fun s => (s.sweep atMs).2 }
  pure (m.stores.values.map fun s => (s.sweep atMs).1).sum

def applySweep (atMs : Int) : M Int := do
  let m ← get
  if m.useDb then
    let removed ← dbCall fun db => .ok (db.deleteExpired atMs)
    let _ ← sweepStores atMs
    pure removed
  else
    let removed ← sweepStores atMs
    pure removed

/-! ## Log entries -/

/-- What the text of a command asks for. -/
inductive Verb where
  | signup (passwordHash : String)
  | set (key value : String) (expireAt : Option Int)
  | delete (key : String) (atMs : Option Int)
  | expiry (key : String) (expireAt : Option Int) (atMs : Int)
  | sweep (atMs : Int)
  | unknown
deriving DecidableEq

/-- The integer a piece of a command stands for. -/
def readInt (l : List Char) : Except SmError Int :=
  match PyText.toInt l with
  | some n => .ok n
  | none => .error .malformed

/-- The first part of `_apply_command`: the verb and its arguments, with
the exceptions that `int()` and unpacking raise. -/
def parseVerb (text : String) : Except SmError Verb := do
  let (verb, rest) := PyText.partition ' ' text.toList
  match String.ofList verb with
  | "SIGNUP" => pure (.signup (String.ofList rest))
  | "SET" =>
    let (key, value) := PyText.partition ' ' rest
    pure (.set (String.ofList key) (String.ofList value) none)
  | "SETEX" =>
    match PyText.splitAt ' ' 2 rest with
    | [key, expireAt, value] => do
      let t ← readInt expireAt
      pure (.set (String.ofList key) (String.ofList value) (some t))
    | _ => throw .malformed
  | "DELETE" =>
    let (key, now) := PyText.partition ' ' rest
    if now = [] then pure (.delete (String.ofList key) none)
    else do
      let t ← readInt now
      pure (.delete (String.ofList key) (some t))
  | "EXPIREAT" =>
    match PyText.split ' ' rest with
    | [key, expireAt, now] => do
      let t ← readInt expireAt
      let n ← readInt now
      pure (.expiry (String.ofList key) (some t) n)
    | _ => throw .malformed
  | "PERSIST" =>
    match PyText.split ' ' rest with
    | [key, now] => do
      let n ← readInt now
      pure (.expiry (String.ofList key) none n)
    | _ => throw .malformed
  | "SWEEP" => do
    let n ← readInt rest
    pure (.sweep n)
  | _ => pure .unknown

/-- The verb of a log entry. NOOP and CONFIG entries are no commands of the
state machine. -/
def LogEntry.verb (entry : LogEntry) : Except SmError Verb :=
  match entry.command with
  | .write text => parseVerb text
  | _ => .ok .unknown

/-- Carry out a verb for a user. -/
def Verb.run (username : String) : Verb → M Result
  | .signup passwordHash => do
    let b ← applySignup username passwordHash
    pure (.bool b)
  | .set key value expireAt => do
    let b ← applySet username key value expireAt
    pure (.bool b)
  | .delete key atMs => do
    let b ← applyDelete username key atMs
    pure (.bool b)
  | .expiry key expireAt atMs => do
    let b ← applyExpiry username key expireAt atMs
    pure (.bool b)
  | .sweep atMs => do
    let n ← applySweep atMs
    pure (.int n)
  | .unknown => pure .none

def applyCommand (entry : LogEntry) : M Result :=
  match entry.verb with
  | .ok verb => verb.run entry.username
  | .error e => throw e

/-! ## Sessions -/

structure RequestId where
  clientId : String
  seq : Int
deriving DecidableEq

/-- `"client_id:seq"` -/
def parseRequestId (text : String) : Except SmError RequestId :=
  let (clientId, seq) := PyText.rpartition ':' text.toList
  (readInt seq).map fun n => ⟨String.ofList clientId, n⟩

/-- The stored answer to a request; none if it has to run (`_MISS`). -/
def Sessions.answerTo (sessions : Sessions) (id : RequestId) : Option Result :=
  match sessions.get? id.clientId with
  | none => none
  | some s =>
    if s.seq < id.seq then none
    else if id.seq = s.seq then some s.result
    else some .none

def checkSession (requestId : String) : M (Option Result) := do
  match parseRequestId requestId with
  | .error e => throw e
  | .ok id =>
    let m ← get
    pure (m.sessions.answerTo id)

/-- The client whose session was used longest ago. -/
def Sessions.oldest (sessions : Sessions) : Option String :=
  (sessions.items.argmin fun p => p.2.index).map Prod.fst

/-- The client that gives way when there are too many sessions. -/
def Sessions.toEvict (sessions : Sessions) : Option String :=
  if sessions.size > maxSessions then sessions.oldest else none

def Sessions.without (sessions : Sessions) (evict : Option String) : Sessions :=
  match evict with
  | some clientId => sessions.erase clientId
  | none => sessions

/-- `json.dumps` of a result -/
def Result.dumps : Result → String
  | .none => "null"
  | .bool true => "true"
  | .bool false => "false"
  | .int n => n.repr

/-- `json.loads` of a text that `dumps` wrote. A number here counts the
entries of a sweep, so the limit on digits is left out. -/
def Result.loads (text : String) : Except SmError Result :=
  match text with
  | "null" => .ok .none
  | "true" => .ok (.bool true)
  | "false" => .ok (.bool false)
  | _ =>
    match PyText.number text.toList with
    | some n => .ok (.int n)
    | _ => .error .malformed

def recordSession (requestId : String) (result : Result) (index : Nat) : M Unit := do
  match parseRequestId requestId with
  | .error e => throw e
  | .ok id =>
    let m ← get
    let sessions : Sessions := m.sessions.set id.clientId ⟨id.seq, result, index⟩
    let evict := sessions.toEvict
    set { m with sessions := sessions.without evict }
    if m.useDb then
      sessionCall fun db => ((), db.saveSession id.clientId id.seq result.dumps index)
      match evict with
      | some clientId =>
        if clientId ≠ "" then sessionCall fun db => ((), db.deleteSession clientId)
      | none => pure ()

/-- Apply one committed log entry and return its result. -/
def apply (entry : LogEntry) : M Result := do
  if entry.requestId = "" then applyCommand entry
  else
    match ← checkSession entry.requestId with
    | some cached => pure cached
    | none =>
      let result ← applyCommand entry
      recordSession entry.requestId result entry.index
      pure result

/-- Apply entries in order; the first that raises ends it (the engine would
repeat that entry for ever). -/
def applyLog : List LogEntry → M (List Result)
  | [] => pure []
  | entry :: rest => do
    let result ← apply entry
    let results ← applyLog rest
    pure (result :: results)

/-! ## Startup and snapshots -/

/-- The stores of a list of users. -/
def readStores (users : List (String × String)) : M (Dict String Store) :=
  users.foldlM (fun stores p => do
    let store ← readStore p.1 p.2
    pure (stores.set p.1 store)) Dict.empty

/-- Session rows as the session table in RAM. -/
def readSessions (rows : List (String × SessionRow)) : Except SmError Sessions :=
  rows.foldlM (fun sessions p => do
    let result ← Result.loads p.2.result
    pure (sessions.set p.1 ⟨p.2.lastSeq, result, p.2.lastIndex⟩)) Dict.empty

/-- Rebuild RAM from the database; every failure is one exception. -/
def loadFromDb : M Unit :=
  tryCatch (do
    let users ← dbRead (·.loadAllUsers)
    let stores ← readStores users
    let rows ← sessionCall fun db => (db.loadSessions, db)
    match readSessions rows with
    | .error e => throw e
    | .ok sessions => modify fun m => { m with stores, sessions })
    fun e => throw (.stateLoad e)

/-- Everything in RAM as snapshot lines. -/
def ramSnapshot (m : CacheStateMachine) : List SnapshotRow :=
  m.stores.values.map (fun s => .user s.username s.passwordHash) ++
  m.stores.values.flatMap (fun s =>
    s.cache.items.map fun p => .entry s.username p.1 p.2 (s.expiry.get? p.1)) ++
  m.sessions.items.map (fun p => .session p.1 p.2.seq p.2.result.dumps p.2.index)

def snapshot : M (List SnapshotRow) := do
  let m ← get
  if m.useDb then dbRead (·.dumpTo) else pure (ramSnapshot m)

/-- Take one snapshot line into stores and sessions. -/
def restoreRow (acc : Dict String Store × Sessions) :
    SnapshotRow → M (Dict String Store × Sessions)
  | .user username passwordHash => do
    let store ← newStore username passwordHash
    pure (acc.1.set username store, acc.2)
  | .entry username key value expireAt =>
    match acc.1.get? username with
    | none => throw (.keyError username)
    | some store => do
      let store ← store.cacheSet key value
      let store := if expireAt.isSome then store.setExpiry key expireAt else store
      pure (acc.1.set username store, acc.2)
  | .session clientId seq result index =>
    match Result.loads result with
    | .error e => throw e
    | .ok result => pure (acc.1, acc.2.set clientId ⟨seq, result, index⟩)

/-- Throw away our data and load the leader's snapshot instead. -/
def restore (lines : List SnapshotRow) : M Unit := do
  let m ← get
  if m.useDb then
    dbCall fun db => (db.replaceFrom lines).map ((), ·)
    loadFromDb
  else
    let (stores, sessions) ← lines.foldlM restoreRow (Dict.empty, Dict.empty)
    modify fun m => { m with stores, sessions }

end KvCache
