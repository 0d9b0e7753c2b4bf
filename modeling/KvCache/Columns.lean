import KvCache.DbRuns

/-!
# Columns with limits

The column types of `apps/users/models.py` and `apps/cluster/models.py`:
a `CharField` holds so many characters and a `BigIntegerField` a signed
64-bit integer. A database that enforces them refuses a write that would
leave a row outside. The methods that write rows are stated here once more
over a database with a check; with a check that always passes they are the
methods themselves (`applyIn_unchecked`).
-/

namespace KvCache

open StateWp

/-- A signed 64-bit integer. -/
def isInt64 (n : Int) : Bool := -2 ^ 63 ≤ n && n < 2 ^ 63

/-- Every row is within its columns. -/
structure Database.Fits (db : Database) : Prop where
  users : ∀ p ∈ db.users.items, p.1.length ≤ 150 ∧ p.2.length ≤ 255
  entries : ∀ p ∈ db.entries.items, p.1.2.length ≤ 512 ∧ p.2.expireAt.all isInt64 = true
  sessions : ∀ p ∈ db.sessions.items,
    p.1.length ≤ 64 ∧ isInt64 p.2.lastSeq = true ∧ isInt64 p.2.lastIndex = true

instance (db : Database) : Decidable db.Fits :=
  decidable_of_iff
    ((∀ p ∈ db.users.items, p.1.length ≤ 150 ∧ p.2.length ≤ 255) ∧
      (∀ p ∈ db.entries.items, p.1.2.length ≤ 512 ∧ p.2.expireAt.all isInt64 = true) ∧
      ∀ p ∈ db.sessions.items,
        p.1.length ≤ 64 ∧ isInt64 p.2.lastSeq = true ∧ isInt64 p.2.lastIndex = true)
    ⟨fun h => ⟨h.1, h.2.1, h.2.2⟩, fun h => ⟨h.users, h.entries, h.sessions⟩⟩

/-- A log entry is within the columns of `raft_log`. -/
structure LogEntry.Fits (entry : LogEntry) : Prop where
  index : isInt64 entry.index = true
  term : isInt64 entry.term = true
  username : entry.username.length ≤ 150
  requestId : entry.requestId.length ≤ 100

/-! ## Writes that the database may refuse -/

section Checked

variable (check : Database → Bool)

/-- A write that is undone when the tables do not pass the check. -/
def checked {α : Type} (f : Database → Except SmError (α × Database)) (db : Database) :
    Except SmError (α × Database) :=
  match f db with
  | .ok (a, db') => if check db' then .ok (a, db') else .error .database
  | .error e => .error e

def applySignupIn (username passwordHash : String) : M Bool := do
  match ← getStore username with
  | some _ => pure false
  | none =>
    let m ← get
    if m.useDb then
      dbCall (checked check fun db => (db.saveUser username passwordHash).map ((), ·))
    let store ← newStore username passwordHash
    putStore username store
    pure true

def applySetIn (username key value : String) (expireAt : Option Int) : M Bool := do
  match ← getStore username with
  | none => pure false
  | some store =>
    let m ← get
    if m.useDb then
      dbCall (checked check fun db => .ok ((), db.saveEntry username key value expireAt))
    let store ← store.cacheSet key value
    putStore username (store.setExpiry key expireAt)
    pure true

def applyExpiryIn (username key : String) (expireAt : Option Int) (atMs : Int) : M Bool := do
  match ← getStore username with
  | none => pure false
  | some store =>
    let (item, store) ← lookup store username key
    match item with
    | none => pure false
    | some (_, old) =>
      if expired old atMs then pure false
      else if expireAt = none ∧ old = none then pure false
      else do
        let m ← get
        if m.useDb then
          let _ ← dbCall (checked check fun db => .ok (db.setExpiry username key expireAt))
        putStore username (store.setExpiry key expireAt)
        pure true

def Verb.runIn (username : String) : Verb → M Result
  | .signup passwordHash => do
    let b ← applySignupIn check username passwordHash
    pure (.bool b)
  | .set key value expireAt => do
    let b ← applySetIn check username key value expireAt
    pure (.bool b)
  | .expiry key expireAt atMs => do
    let b ← applyExpiryIn check username key expireAt atMs
    pure (.bool b)
  -- the others only delete rows
  | verb => verb.run username

def applyCommandIn (entry : LogEntry) : M Result :=
  match entry.verb with
  | .ok verb => verb.runIn check entry.username
  | .error e => throw e

/-- `sessionCall` on a database with a check. -/
def sessionCallIn {α : Type} (f : Database → α × Database) : M α := do
  let m ← get
  set { m with sessionFaults := m.sessionFaults.tail }
  if m.sessionFaults.headD false then throw .database
  let (a, db) := f m.db
  if check db then
    modify fun m => { m with db }
    pure a
  else throw .database

def recordSessionIn (requestId : String) (result : Result) (index : Nat) : M Unit := do
  match parseRequestId requestId with
  | .error e => throw e
  | .ok id =>
    let m ← get
    let sessions : Sessions := m.sessions.set id.clientId ⟨id.seq, result, index⟩
    let evict := sessions.toEvict
    set { m with sessions := sessions.without evict }
    if m.useDb then
      sessionCallIn check fun db => ((), db.saveSession id.clientId id.seq result.dumps index)
      match evict with
      | some clientId =>
        if clientId ≠ "" then sessionCall fun db => ((), db.deleteSession clientId)
      | none => pure ()

/-- Apply one committed log entry over a database with a check. -/
def applyIn (entry : LogEntry) : M Result := do
  if entry.requestId = "" then applyCommandIn check entry
  else
    match ← checkSession entry.requestId with
    | some cached => pure cached
    | none =>
      let result ← applyCommandIn check entry
      recordSessionIn check entry.requestId result entry.index
      pure result

end Checked

/-- The database of the models: rows stay within their columns. -/
def withinColumns (db : Database) : Bool := db.Fits

/-! ## A check that always passes -/

@[simp] theorem checked_unchecked {α : Type} (f : Database → Except SmError (α × Database)) :
    checked (fun _ => true) f = f := by
  funext db
  unfold checked
  cases f db with
  | error e => rfl
  | ok p => rfl

@[simp] theorem sessionCallIn_unchecked {α : Type} (f : Database → α × Database) :
    sessionCallIn (fun _ => true) f = sessionCall f := rfl

theorem runIn_unchecked (username : String) (verb : Verb) :
    verb.runIn (fun _ => true) username = verb.run username := by
  cases verb with
  | signup passwordHash => simp only [Verb.runIn, Verb.run, applySignupIn, checked_unchecked]; rfl
  | set key value expireAt => simp only [Verb.runIn, Verb.run, applySetIn, checked_unchecked]; rfl
  | expiry key expireAt atMs =>
      simp only [Verb.runIn, Verb.run, applyExpiryIn, checked_unchecked]; rfl
  | delete key atMs => rfl
  | sweep atMs => rfl
  | unknown => rfl

theorem applyIn_unchecked (entry : LogEntry) : applyIn (fun _ => true) entry = apply entry := by
  have hcommand : applyCommandIn (fun _ => true) entry = applyCommand entry := by
    unfold applyCommandIn applyCommand
    cases entry.verb with
    | ok verb => exact runIn_unchecked entry.username verb
    | error e => rfl
  unfold applyIn apply
  rw [hcommand]
  simp only [recordSessionIn, sessionCallIn_unchecked]
  rfl

/-! ## Writes that fit -/

section Fits

variable {db : Database} {username key : String}

theorem Database.Fits.saveUser (h : db.Fits) {passwordHash : String} (hu : username.length ≤ 150)
    (hp : passwordHash.length ≤ 255) {db' : Database}
    (hs : db.saveUser username passwordHash = .ok db') : db'.Fits := by
  unfold Database.saveUser at hs
  split at hs
  · cases hs
  · obtain rfl := Except.ok.inj hs
    refine ⟨?_, h.entries, h.sessions⟩
    rintro ⟨u, p⟩ hm
    rcases Dict.mem_set.mp hm with ⟨rfl, rfl⟩ | ⟨-, hm⟩
    · exact ⟨hu, hp⟩
    · exact h.users _ hm

theorem Database.Fits.saveEntry (h : db.Fits) {value : String} {expireAt : Option Int}
    (hk : key.length ≤ 512) (he : expireAt.all isInt64 = true) :
    (db.saveEntry username key value expireAt).Fits := by
  unfold Database.saveEntry
  split
  · refine ⟨h.users, ?_, h.sessions⟩
    rintro ⟨k, row⟩ hm
    rcases Dict.mem_set.mp hm with ⟨rfl, rfl⟩ | ⟨-, hm⟩
    · exact ⟨hk, he⟩
    · exact h.entries _ hm
  · exact h

theorem Database.Fits.setExpiry (h : db.Fits) {expireAt : Option Int}
    (he : key.length ≤ 512 → expireAt.all isInt64 = true) :
    (db.setExpiry username key expireAt).2.Fits := by
  unfold Database.setExpiry
  split
  · exact h
  · next row hrow =>
      refine ⟨h.users, ?_, h.sessions⟩
      have hk := (h.entries _ (Dict.get?_eq_some.mp hrow)).1
      rintro ⟨k, row'⟩ hm
      rcases Dict.mem_set.mp hm with ⟨rfl, rfl⟩ | ⟨-, hm⟩
      · exact ⟨hk, he hk⟩
      · exact h.entries _ hm

theorem Database.Fits.keepEntries (h : db.Fits) (keep : (String × String) × EntryRow → Bool) :
    (db.keepEntries keep).Fits :=
  ⟨h.users, fun p hp => h.entries p (Dict.mem_filter.mp hp).1, h.sessions⟩

theorem Database.Fits.deleteEntry (h : db.Fits) (username key : String) :
    (db.deleteEntry username key).2.Fits := by
  unfold Database.deleteEntry
  dsimp only
  split
  · exact h.keepEntries _
  · exact h

theorem Database.Fits.saveSession (h : db.Fits) {clientId result : String} {seq : Int}
    {index : Nat} (hc : clientId.length ≤ 64) (hs : isInt64 seq = true)
    (hi : isInt64 index = true) : (db.saveSession clientId seq result index).Fits := by
  refine ⟨h.users, h.entries, ?_⟩
  rintro ⟨c, row⟩ hm
  rcases Dict.mem_set.mp hm with ⟨rfl, rfl⟩ | ⟨-, hm⟩
  · exact ⟨hc, hs, hi⟩
  · exact h.sessions _ hm

theorem Database.Fits.deleteSession (h : db.Fits) (clientId : String) :
    (db.deleteSession clientId).Fits :=
  ⟨h.users, h.entries, fun p hp => h.sessions p (Dict.mem_filter.mp hp).1⟩

end Fits

/-! ## Verbs that fit -/

/-- The key of a verb is one that can be stored, or asked for. -/
def Verb.KeyFits : Verb → Prop
  | .set key _ _ => key ≠ "" ∧ key.length ≤ 512
  | .expiry key _ _ => key ≠ ""
  | _ => True

/-- What else a verb writes is within the columns. No entry has a key that
is too long, so its expiry time is never written. -/
def Verb.InRange : Verb → Prop
  | .signup passwordHash => passwordHash.length ≤ 255
  | .set _ _ expireAt => expireAt.all isInt64 = true
  | .expiry key expireAt _ => key.length ≤ 512 → expireAt.all isInt64 = true
  | _ => True

/-- A machine whose RAM and whose calls are in order, with tables within
their columns. -/
structure Sound (m : CacheStateMachine) : Prop extends Coherent m where
  fits : m.db.Fits

section Verbs

variable {m : CacheStateMachine} {username key : String}

theorem withinColumns_eq {db : Database} : withinColumns db = true ↔ db.Fits := decide_eq_true_iff

/-- A write that fits goes through. -/
theorem wp_checked {α : Type} {f : Database → Except SmError (α × Database)} {a : α}
    {db : Database} (hs : Sound m) (hf : f m.db = .ok (a, db)) (hfits : db.Fits)
    {Q : α → CacheStateMachine → Prop} {R : SmError → CacheStateMachine → Prop} :
    wp (dbCall (checked withinColumns f)) Q R m ↔ Q a { m with db } := by
  refine wp_dbCall_quiet hs.quiet ?_
  unfold checked
  rw [hf]
  exact if_pos (withinColumns_eq.mpr hfits)

/-- What a verb leaves for the session table. -/
def Ready (m : CacheStateMachine) : Prop :=
  m.useDb = true ∧ m.sessionFaults = [] ∧ m.db.Fits

theorem Sound.ready (hs : Sound m) : Ready m := ⟨hs.useDb, hs.quietSessions, hs.fits⟩

theorem wp_getStore_sound (hs : Sound m) :
    wp (getStore username)
      (fun r m' => Sound m' ∧ m'.db = m.db ∧
        match r with
        | none => m'.db.users.get? username = none
        | some s => m'.stores.get? username = some s)
      (fun _ _ => False) m := by
  refine wp_mono (wp_getStore hs.toCoherent) (fun r m' h => ?_) fun _ _ h => h
  obtain ⟨hc, hdb, hr⟩ := h
  refine ⟨⟨hc, hdb ▸ hs.fits⟩, hdb, ?_⟩
  cases r with
  | none => exact hdb ▸ hr
  | some s => exact hr

theorem wp_lookup_sound (hs : Sound m) {s : Store} (hstore : m.stores.get? username = some s) :
    wp (lookup s username key)
      (fun p m' => Sound m' ∧ m'.db = m.db ∧ p.1 = m.db.reference.entries username key)
      (fun _ _ => False) m := by
  refine wp_mono (wp_lookup hs.toCoherent hstore) (fun p m' h => ?_) fun _ _ h => h
  obtain ⟨hc, hdb, -, hitem⟩ := h
  exact ⟨⟨hc, hdb ▸ hs.fits⟩, hdb, hitem⟩

theorem signup_fits (hs : Sound m) {passwordHash : String} (hu : username.length ≤ 150)
    (hp : passwordHash.length ≤ 255) :
    wp (applySignupIn withinColumns username passwordHash) (fun _ => Ready) (fun _ _ => False) m := by
  unfold applySignupIn
  rw [wp_bind]
  refine wp_mono (wp_getStore_sound hs) (fun r m' h => ?_) fun _ _ h => h
  obtain ⟨hs', -, hr⟩ := h
  cases r with
  | some s => exact hs'.ready
  | none =>
      have hsave : ∃ db, m'.db.saveUser username passwordHash = .ok db := by
        unfold Database.saveUser
        rw [if_neg (by simp [Dict.contains, hr])]
        exact ⟨_, rfl⟩
      obtain ⟨db, hdb⟩ := hsave
      have hfits := hs'.fits.saveUser hu hp hdb
      have hcall : (m'.db.saveUser username passwordHash).map (((), ·) : Database → _)
          = .ok ((), db) := by rw [hdb]; rfl
      rw [wp_bind, wp_get, if_pos hs'.useDb, wp_bind, wp_checked hs' hcall hfits]
      unfold newStore putStore
      simp only [wp_bind, wp_get, hs'.capacity, dite_true, wp_pure, wp_modify]
      exact ⟨hs'.useDb, hs'.quietSessions, hfits⟩

theorem set_fits (hs : Sound m) {value : String} {expireAt : Option Int} (hn : key ≠ "")
    (hk : key.length ≤ 512) (he : expireAt.all isInt64 = true) :
    wp (applySetIn withinColumns username key value expireAt) (fun _ => Ready)
      (fun _ _ => False) m := by
  unfold applySetIn
  rw [wp_bind]
  refine wp_mono (wp_getStore_sound hs) (fun r m' h => ?_) fun _ _ h => h
  obtain ⟨hs', -, -⟩ := h
  cases r with
  | none => exact hs'.ready
  | some s =>
      have hfits : (m'.db.saveEntry username key value expireAt).Fits := hs'.fits.saveEntry hk he
      rw [wp_bind, wp_get, if_pos hs'.useDb, wp_bind, wp_checked hs' rfl hfits]
      unfold Store.cacheSet putStore
      rw [if_neg hn, wp_bind, wp_pure, wp_bind, wp_modify, wp_pure]
      exact ⟨hs'.useDb, hs'.quietSessions, hfits⟩

theorem expiry_fits (hs : Sound m) {expireAt : Option Int} {atMs : Int}
    (he : key.length ≤ 512 → expireAt.all isInt64 = true) :
    wp (applyExpiryIn withinColumns username key expireAt atMs) (fun _ => Ready)
      (fun _ _ => False) m := by
  unfold applyExpiryIn
  rw [wp_bind]
  refine wp_mono (wp_getStore_sound hs) (fun r m' h => ?_) fun _ _ h => h
  obtain ⟨hs', -, hr⟩ := h
  cases r with
  | none => exact hs'.ready
  | some s =>
      dsimp only
      rw [wp_bind]
      refine wp_mono (wp_lookup_sound hs' hr) (fun p m'' h => ?_) fun _ _ h => h
      obtain ⟨hs'', -, -⟩ := h
      obtain ⟨item, t⟩ := p
      cases item with
      | none => exact hs''.ready
      | some item =>
          have hfits : (m''.db.setExpiry username key expireAt).2.Fits := hs''.fits.setExpiry he
          dsimp only
          rw [wp_ite]
          split
          · exact hs''.ready
          · rw [wp_ite]
            split
            · exact hs''.ready
            · rw [wp_bind, wp_get, wp_ite, if_pos hs''.useDb, wp_bind, wp_checked hs'' rfl hfits]
              exact ⟨hs''.useDb, hs''.quietSessions, hfits⟩

theorem delete_fits (hs : Sound m) (atMs : Option Int) :
    wp (applyDelete username key atMs) (fun _ => Ready) (fun _ _ => False) m := by
  unfold applyDelete
  rw [wp_bind]
  refine wp_mono (wp_getStore_sound hs) (fun r m' h => ?_) fun _ _ h => h
  obtain ⟨hs', -, hr⟩ := h
  cases r with
  | none => exact hs'.ready
  | some s =>
      dsimp only
      rw [wp_bind]
      refine wp_mono (wp_lookup_sound hs' hr) (fun p m'' h => ?_) fun _ _ h => h
      obtain ⟨hs'', -, -⟩ := h
      rw [wp_bind, wp_get, if_pos hs''.useDb, wp_bind, wp_dbCall_pair hs''.quiet]
      exact ⟨hs''.useDb, hs''.quietSessions, hs''.fits.deleteEntry username key⟩

/-- A verb whose writes fit runs to its end. -/
theorem runIn_fits (hs : Sound m) {verb : Verb} (hu : username.length ≤ 150)
    (hk : verb.KeyFits) (hr : verb.InRange) :
    wp (verb.runIn withinColumns username) (fun _ => Ready) (fun _ _ => False) m := by
  cases verb with
  | signup passwordHash =>
      rw [Verb.runIn, wp_bind]
      exact signup_fits hs hu hr
  | set key value expireAt =>
      rw [Verb.runIn, wp_bind]
      exact set_fits hs hk.1 hk.2 hr
  | expiry key expireAt atMs =>
      rw [Verb.runIn, wp_bind]
      exact expiry_fits hs hr
  | delete key atMs =>
      rw [Verb.runIn, Verb.run, wp_bind]
      · exact delete_fits hs atMs
      all_goals intros; contradiction
  | sweep atMs =>
      rw [Verb.runIn, Verb.run, wp_bind]
      · unfold applySweep sweepStores
        rw [wp_bind, wp_get, if_pos hs.useDb, wp_bind, wp_dbCall_pair hs.quiet]
        exact ⟨hs.useDb, hs.quietSessions, hs.fits.keepEntries _⟩
      all_goals intros; contradiction
  | unknown => exact hs.ready

end Verbs

/-! ## Entries that fit -/

section Entries

variable {m : CacheStateMachine}

/-- A request id is within the columns of the session table. -/
def RequestId.Fits (id : RequestId) : Prop := id.clientId.length ≤ 64 ∧ isInt64 id.seq = true

theorem record_fits (hm : Ready m) {requestId : String} {id : RequestId} {index : Nat}
    (hid : parseRequestId requestId = .ok id) (hf : id.Fits) (hi : isInt64 index = true)
    (result : Result) :
    wp (recordSessionIn withinColumns requestId result index) (fun _ _ => True)
      (fun _ _ => False) m := by
  obtain ⟨hdb, hq, hfits⟩ := hm
  have hsave : (m.db.saveSession id.clientId id.seq result.dumps index).Fits :=
    hfits.saveSession hf.1 hf.2 hi
  unfold recordSessionIn sessionCallIn
  rw [hid]
  simp only [wp_bind, wp_get, wp_set, hdb, hq, List.headD_nil, List.tail_nil,
    Bool.false_eq_true, if_false, if_true, withinColumns_eq.mpr hsave, wp_modify, wp_pure]
  split
  · split
    · unfold sessionCall
      simp only [wp_bind, wp_get, wp_set, List.headD_nil, Bool.false_eq_true, if_false, wp_modify,
        wp_pure]
    · trivial
  · trivial

/-- An entry whose verb and request id fit is applied. -/
theorem applyIn_fits (hs : Sound m) {entry : LogEntry} {verb : Verb} {id : RequestId}
    (hv : entry.verb = .ok verb) (hu : entry.username.length ≤ 150) (hk : verb.KeyFits)
    (hr : verb.InRange) (hid : parseRequestId entry.requestId = .ok id) (hf : id.Fits)
    (hi : isInt64 entry.index = true) :
    wp (applyIn withinColumns entry) (fun _ _ => True) (fun _ _ => False) m := by
  have hrun := runIn_fits hs hu hk hr
  unfold applyIn applyCommandIn
  rw [hv]
  dsimp only
  rw [wp_ite]
  split
  · exact wp_mono hrun (fun _ _ _ => trivial) fun _ _ h => h
  · unfold checkSession
    rw [hid]
    simp only [wp_bind, wp_get, wp_pure]
    cases m.sessions.answerTo id with
    | some a => exact trivial
    | none =>
        dsimp only
        rw [wp_bind]
        refine wp_mono hrun (fun r m' h => ?_) fun _ _ h => h
        rw [wp_bind]
        exact wp_mono (record_fits h hid hf hi r) (fun _ _ _ => trivial) fun _ _ h => h

/-! ## Entries that are refused wherever they run -/

/-- A write that does not fit is refused. -/
theorem wp_refused {α : Type} {f : Database → Except SmError (α × Database)} {a : α}
    {db : Database} (hs : Sound m) (hf : f m.db = .ok (a, db)) (hfits : ¬ db.Fits)
    {Q : α → CacheStateMachine → Prop} :
    wp (dbCall (checked withinColumns f)) Q (fun _ _ => True) m := by
  have hw : ¬ withinColumns db = true := fun h => hfits (withinColumns_eq.mp h)
  unfold dbCall checked
  simp only [wp_bind, wp_get, wp_set, hs.quiet, List.headD_nil, Bool.false_eq_true, if_false, hf,
    hw]
  trivial

/-- A first request whose command is refused is refused. -/
theorem applyIn_refused {entry : LogEntry} {verb : Verb} {id : RequestId}
    (hv : entry.verb = .ok verb) (hid : parseRequestId entry.requestId = .ok id)
    (hnew : m.sessions.answerTo id = none)
    (hrun : wp (verb.runIn withinColumns entry.username) (fun _ _ => False) (fun _ _ => True) m) :
    wp (applyIn withinColumns entry) (fun _ _ => False) (fun _ _ => True) m := by
  unfold applyIn applyCommandIn
  rw [hv]
  dsimp only
  rw [wp_ite]
  split
  · exact hrun
  · unfold checkSession
    rw [hid]
    simp only [wp_bind, wp_get, wp_pure, hnew]
    exact wp_mono hrun (fun _ _ h => h.elim) fun _ _ h => h

theorem signup_refused (hs : Sound m) {username passwordHash : String}
    (hu : m.db.users.get? username = none) (hp : ¬ passwordHash.length ≤ 255) :
    wp ((Verb.signup passwordHash).runIn withinColumns username) (fun _ _ => False)
      (fun _ _ => True) m := by
  unfold Verb.runIn applySignupIn
  rw [wp_bind, wp_bind]
  refine wp_mono (wp_getStore_sound hs) (fun r m' h => ?_) fun _ _ h => h.elim
  obtain ⟨hs', hdb, hr⟩ := h
  cases r with
  | some s =>
      have hhash := (hs'.shown _ _ hr).hash
      rw [hdb, hu] at hhash
      cases hhash
  | none =>
      have hsave : ∃ db, m'.db.saveUser username passwordHash = .ok db ∧
          db.users = m'.db.users.set username passwordHash := by
        unfold Database.saveUser
        rw [if_neg (by simp [Dict.contains, hr])]
        exact ⟨_, rfl, rfl⟩
      obtain ⟨db, hdb', husers⟩ := hsave
      have hcall : (m'.db.saveUser username passwordHash).map (((), ·) : Database → _)
          = .ok ((), db) := by rw [hdb']; rfl
      rw [wp_bind, wp_get, if_pos hs'.useDb, wp_bind]
      refine wp_refused hs' hcall fun hf => hp (hf.users (username, passwordHash) ?_).2
      rw [husers]
      exact Dict.mem_set.mpr (Or.inl ⟨rfl, rfl⟩)

theorem set_refused (hs : Sound m) {username key value : String} {expireAt : Option Int}
    (hu : m.db.users.contains username = true) (he : ¬ expireAt.all isInt64 = true) :
    wp ((Verb.set key value expireAt).runIn withinColumns username) (fun _ _ => False)
      (fun _ _ => True) m := by
  unfold Verb.runIn applySetIn
  rw [wp_bind, wp_bind]
  refine wp_mono (wp_getStore_sound hs) (fun r m' h => ?_) fun _ _ h => h.elim
  obtain ⟨hs', hdb, hr⟩ := h
  cases r with
  | none =>
      rw [hdb] at hr
      rw [Dict.contains, hr] at hu
      cases hu
  | some s =>
      rw [wp_bind, wp_get, if_pos hs'.useDb, wp_bind]
      refine wp_refused hs' rfl fun hf => he ?_
      refine (hf.entries ((username, key), ⟨value, expireAt, m'.db.now⟩) ?_).2
      unfold Database.saveEntry
      rw [dif_pos (hdb ▸ hu)]
      exact Dict.mem_set.mpr (Or.inl ⟨rfl, rfl⟩)

theorem entries_setExpiry {db : Database} {username key : String} {row : EntryRow}
    (h : db.entries.get? (username, key) = some row) (expireAt : Option Int) :
    (db.setExpiry username key expireAt).2.entries
      = db.entries.set (username, key) { row with expireAt } := by
  unfold Database.setExpiry
  split
  · next hn =>
      rw [h] at hn
      cases hn
  · next row' hr =>
      rw [h] at hr
      obtain rfl := Option.some.inj hr
      rfl

theorem expiry_refused (hs : Sound m) {username key : String} {row : EntryRow}
    {expireAt : Option Int} {atMs : Int}
    (hrow : m.db.entries.get? (username, key) = some row) (hlive : row.expireAt = none)
    (he : ¬ expireAt.all isInt64 = true) :
    wp ((Verb.expiry key expireAt atMs).runIn withinColumns username) (fun _ _ => False)
      (fun _ _ => True) m := by
  unfold Verb.runIn applyExpiryIn
  rw [wp_bind, wp_bind]
  refine wp_mono (wp_getStore_sound hs) (fun r m' h => ?_) fun _ _ h => h.elim
  obtain ⟨hs', hdb, hr⟩ := h
  cases r with
  | none =>
      have hu := m.db.owned _ (Dict.get?_eq_some.mp hrow)
      rw [hdb] at hr
      rw [Dict.contains, hr] at hu
      cases hu
  | some s =>
      dsimp only
      rw [wp_bind]
      refine wp_mono (wp_lookup_sound hs' hr) (fun p m'' h => ?_) fun _ _ h => h.elim
      obtain ⟨hs'', hdb', hitem⟩ := h
      obtain ⟨item, t⟩ := p
      have hentry : item = some (row.value, none) := by
        rw [show item = _ from hitem, hdb]
        exact Database.entries_eq_some.mpr ⟨row, hrow, rfl, hlive⟩
      have hsome : expireAt ≠ none := by
        rintro rfl
        exact he rfl
      subst hentry
      dsimp only
      rw [wp_ite, if_neg (show ¬ expired none atMs = true by simp [expired]), wp_ite,
        if_neg (fun h => hsome h.1), wp_bind, wp_get, wp_ite, if_pos hs''.useDb, wp_bind]
      have hrow' : m''.db.entries.get? (username, key) = some row := by rw [hdb', hdb, hrow]
      have hset := entries_setExpiry hrow' expireAt
      refine wp_refused hs'' rfl fun hf => he ?_
      refine (hf.entries ((username, key), { row with expireAt }) ?_).2
      exact hset ▸ Dict.mem_set.mpr (Or.inl ⟨rfl, rfl⟩)

/-- A first request with a number out of range is refused at the latest when
its answer is stored. -/
theorem seq_refused (hs : Sound m) {entry : LogEntry} {verb : Verb} {id : RequestId}
    (hv : entry.verb = .ok verb) (hu : entry.username.length ≤ 150) (hk : verb.KeyFits)
    (hr : verb.InRange) (hne : entry.requestId ≠ "")
    (hid : parseRequestId entry.requestId = .ok id)
    (hnew : m.sessions.answerTo id = none) (hseq : ¬ isInt64 id.seq = true) :
    wp (applyIn withinColumns entry) (fun _ _ => False) (fun _ _ => True) m := by
  unfold applyIn applyCommandIn
  rw [hv]
  dsimp only
  rw [wp_ite, if_neg hne]
  unfold checkSession
  rw [hid]
  simp only [wp_bind, wp_get, wp_pure, hnew]
  refine wp_mono (runIn_fits hs hu hk hr) (fun r m' h => ?_) fun _ _ h => h.elim
  obtain ⟨hdb, hq, -⟩ := h
  have hsave : ¬ withinColumns
      (m'.db.saveSession id.clientId id.seq r.dumps entry.index) = true := by
    intro h
    refine hseq ((withinColumns_eq.mp h).sessions
      (id.clientId, ⟨id.seq, r.dumps, entry.index⟩) ?_).2.1
    exact Dict.mem_set.mpr (Or.inl ⟨rfl, rfl⟩)
  unfold recordSessionIn sessionCallIn
  rw [hid]
  simp only [wp_bind, wp_get, wp_set, hdb, hq, List.headD_nil, List.tail_nil,
    Bool.false_eq_true, if_false, if_true, hsave]
  trivial

end Entries

end KvCache
