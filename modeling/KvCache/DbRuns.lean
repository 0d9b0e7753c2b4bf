import KvCache.DbMode

/-!
# Runs in front of the database

`apply` on a coherent machine is `applyWith` on the reference that its
database stands for, reads find what the reference finds, and both keep
coherence: a run and the reference's run give the same outcomes
(`ram_is_invisible`). The rows of the session table mirror the table in RAM
(`Mirrored`).
-/

namespace KvCache

open StateWp

/-! ## Session rows -/

/-- The row of a session. -/
def Session.row (s : Session) : SessionRow := ⟨s.seq, s.result.dumps, s.index⟩

/-- What a new answer does to the rows of the session table. -/
def recordRows (rows : Dict String SessionRow) (id : RequestId) (result : Result) (index : Nat)
    (evict : Option String) : Dict String SessionRow :=
  let rows := rows.set id.clientId ⟨id.seq, result.dumps, index⟩
  match evict with
  | some clientId => if clientId ≠ "" then rows.erase clientId else rows
  | none => rows

/-- The client that a new answer drives out of the table. -/
def Sessions.evictedBy (sessions : Sessions) (id : RequestId) (result : Result) (index : Nat) :
    Option String :=
  Sessions.toEvict (sessions.set id.clientId ⟨id.seq, result, index⟩)

/-- The table in RAM has the rows of the table in the database, in the same
order, and none has an empty client id. -/
structure Mirrored (m : CacheStateMachine) : Prop where
  rows : Dict.Rel (fun (s : Session) row => row = s.row) m.sessions m.db.sessions
  named : m.sessions.get? "" = none

theorem Mirrored.of_rows {m m' : CacheStateMachine} (hm : Mirrored m)
    (hrows : m'.db.sessions = m.db.sessions) (hs : m'.sessions = m.sessions) : Mirrored m' := by
  refine ⟨?_, ?_⟩
  · rw [hs, hrows]
    exact hm.rows
  · rw [hs]
    exact hm.named

/-- Client ids in requests are not empty (a tag has at least one letter). -/
def LogEntry.Named (entry : LogEntry) : Prop :=
  ∀ id, entry.request = some id → id.clientId ≠ ""

section Sessions

variable {m : CacheStateMachine} {id : RequestId} {result : Result} {index : Nat}

/-- Recording an answer with the database on: RAM first, then the row, then
the row of the client that has to go. -/
theorem wp_recordSession {requestId : String} (hm : m.useDb = true)
    (hid : parseRequestId requestId = .ok id) {Q : Unit → CacheStateMachine → Prop}
    {R : SmError → CacheStateMachine → Prop} :
    wp (recordSession requestId result index) Q R m ↔
      let m₁ := { m with
        sessions := m.sessions.record id result index, sessionFaults := m.sessionFaults.tail }
      if m.sessionFaults.headD false then R .database m₁
      else
        let m₂ := { m₁ with db := m.db.saveSession id.clientId id.seq result.dumps index }
        match m.sessions.evictedBy id result index with
        | some clientId =>
          if clientId ≠ "" then
            let m₃ := { m₂ with sessionFaults := m₂.sessionFaults.tail }
            if m₂.sessionFaults.headD false then R .database m₃
            else Q () { m₃ with db := m₂.db.deleteSession clientId }
          else Q () m₂
        | none => Q () m₂ := by
  unfold recordSession Sessions.record Sessions.evictedBy
  rw [hid]
  simp only [wp_bind, wp_get, wp_set]
  generalize Sessions.toEvict (m.sessions.set id.clientId ⟨id.seq, result, index⟩) = evict
  rw [wp_ite, if_pos hm, wp_bind, wp_sessionCall]
  split
  · exact Iff.rfl
  · cases evict with
    | none => exact Iff.rfl
    | some clientId =>
        dsimp only
        rw [wp_ite]
        split
        · exact wp_sessionCall
        · exact Iff.rfl

theorem wp_recordSession_quiet {requestId : String} (hm : m.useDb = true)
    (hq : m.sessionFaults = []) (hid : parseRequestId requestId = .ok id) :
    wp (recordSession requestId result index)
      (fun _ m' => m' = { m with
        sessions := m.sessions.record id result index
        db := { m.db with
          sessions := recordRows m.db.sessions id result index
            (m.sessions.evictedBy id result index) } })
      (fun _ _ => False) m := by
  rw [wp_recordSession hm hid]
  simp only [hq, List.headD_nil, Bool.false_eq_true, if_false, List.tail_nil]
  unfold recordRows
  split
  · next clientId _ =>
      by_cases hc : clientId = ""
      · rw [if_neg (by simp [hc])]
        simp [hc, Database.saveSession, ← hq]
      · rw [if_pos hc]
        simp [hc, Database.saveSession, Database.deleteSession, ← hq]
  · simp [Database.saveSession, ← hq]

theorem oldest_mem {sessions : Sessions} {clientId : String}
    (h : sessions.oldest = some clientId) : ∃ s, sessions.get? clientId = some s := by
  unfold Sessions.oldest at h
  obtain ⟨p, hp, rfl⟩ := Option.map_eq_some_iff.mp h
  exact ⟨p.2, Dict.get?_eq_some.mpr (List.argmin_mem hp)⟩

/-- The evicted client is in the table that has the new answer. -/
theorem evictedBy_mem {clientId : String}
    (h : m.sessions.evictedBy id result index = some clientId) :
    ∃ s, Dict.get? (m.sessions.set id.clientId ⟨id.seq, result, index⟩) clientId = some s := by
  unfold Sessions.evictedBy Sessions.toEvict at h
  split at h
  · exact oldest_mem h
  · cases h

theorem Mirrored.evictedBy_ne (h : Mirrored m) (hn : id.clientId ≠ "") {clientId : String}
    (he : m.sessions.evictedBy id result index = some clientId) : clientId ≠ "" := by
  rintro rfl
  obtain ⟨s, hs⟩ := evictedBy_mem he
  rw [Dict.get?_set, if_neg hn.symm, h.named] at hs
  cases hs

/-- Recording the answer of a named client in both tables. -/
theorem Mirrored.record (h : Mirrored m) (hn : id.clientId ≠ "") (result : Result) (index : Nat) :
    Mirrored { m with
      sessions := m.sessions.record id result index
      db := { m.db with
        sessions := recordRows m.db.sessions id result index
          (m.sessions.evictedBy id result index) } } := by
  have hset := h.rows.set id.clientId (v := ⟨id.seq, result, index⟩)
    (w := ⟨id.seq, result.dumps, index⟩) rfl
  have hempty : Dict.get? (m.sessions.set id.clientId ⟨id.seq, result, index⟩) "" = none := by
    rw [Dict.get?_set, if_neg hn.symm, h.named]
  unfold Sessions.record recordRows
  dsimp only
  rw [show Sessions.toEvict _ = m.sessions.evictedBy id result index from rfl]
  cases he : m.sessions.evictedBy id result index with
  | none => exact ⟨hset, hempty⟩
  | some clientId =>
      have hc := h.evictedBy_ne hn he
      refine ⟨?_, ?_⟩
      · dsimp only
        rw [if_pos hc]
        exact hset.erase clientId
      · have herase := Dict.get?_erase (m.sessions.set id.clientId ⟨id.seq, result, index⟩)
          clientId ""
        rw [hempty, ite_self] at herase
        exact herase

end Sessions

/-! ## Applying an entry -/

section Coherent

variable {m : CacheStateMachine} {username key : String}

theorem Coherent.withSessions (hc : Coherent m) (sessions : Sessions)
    (rows : Dict String SessionRow) :
    Coherent { m with sessions, db := { m.db with sessions := rows } } where
  useDb := hc.useDb
  capacity := hc.capacity
  quiet := hc.quiet
  quietSessions := hc.quietSessions
  keyed := hc.keyed
  shown u s hs := by
    have h := hc.shown u s hs
    exact ⟨h.name, h.hash, h.size, h.keys⟩

/-- A command on a coherent machine is the reference's command. -/
theorem wp_applyCommand_db (hc : Coherent m) (entry : LogEntry) :
    wp (applyCommand entry)
      (fun r m' => Reference.command entry m.db.reference = .ok (r, m'.db.reference) ∧
        Coherent m' ∧ Still m m')
      (fun e m' => Reference.command entry m.db.reference = .error e ∧ Shown m' ∧ Still m m') m := by
  have hstill := still_applyCommand entry m (Still.refl m)
  unfold applyCommand at hstill ⊢
  unfold Reference.command
  cases hv : entry.verb with
  | error e => exact ⟨rfl, hc.shown, Still.refl m⟩
  | ok verb =>
      rw [hv] at hstill
      refine wp_mono (wp_and (matches_verb hc verb) hstill) ?_ ?_
      · intro r m' h
        exact ⟨h.1.1, h.1.2, h.2⟩
      · intro e m' h
        exact ⟨h.1.1, h.1.2, h.2⟩

/-- `apply` on a coherent machine is `apply` on the reference. -/
theorem wp_apply_db (hc : Coherent m) (entry : LogEntry) :
    wp (apply entry)
      (fun r m' => applyWith (Reference.command entry) entry m.db.reference m.sessions
          = .ok (r, m'.db.reference, m'.sessions) ∧
        Coherent m' ∧ m'.capacity = m.capacity ∧ (Mirrored m → entry.Named → Mirrored m'))
      (fun e m' => applyWith (Reference.command entry) entry m.db.reference m.sessions
          = .error e ∧ Shown m') m := by
  have hcmd := wp_applyCommand_db hc entry
  unfold apply applyWith
  by_cases he : entry.requestId = ""
  · rw [if_pos he, if_pos he]
    refine wp_mono hcmd (fun r m' h => ?_) fun e m' h => ?_
    · obtain ⟨href, hc', hst⟩ := h
      refine ⟨by rw [href, hst.sessions]; rfl, hc', hst.capacity, fun hm _ => ?_⟩
      exact hm.of_rows hst.rows hst.sessions
    · exact ⟨by rw [h.1]; rfl, h.2.1⟩
  · rw [if_neg he, if_neg he]
    unfold checkSession
    cases hp : parseRequestId entry.requestId with
    | error e => exact ⟨rfl, hc.shown⟩
    | ok id =>
        simp only [wp_bind, wp_get, wp_pure]
        cases ha : m.sessions.answerTo id with
        | some a => exact ⟨rfl, hc, rfl, fun hm _ => hm⟩
        | none =>
            rw [wp_bind]
            refine wp_mono hcmd (fun r m' h => ?_) fun e m' h => ⟨by rw [h.1]; rfl, h.2.1⟩
            obtain ⟨href, hc', hst⟩ := h
            rw [wp_bind]
            refine wp_mono (wp_recordSession_quiet hc'.useDb hc'.quietSessions hp)
              (fun _ m'' h => ?_) fun _ _ h => h.elim
            subst h
            refine ⟨?_, hc'.withSessions _ _, hst.capacity, fun hm hnamed => ?_⟩
            · rw [href, hst.sessions]
              rfl
            · have hm' : Mirrored m' := hm.of_rows hst.rows hst.sessions
              refine hm'.record (hnamed id ?_) _ _
              simp [LogEntry.request, he, hp, Except.toOption]

/-! ## Reads -/

/-- A read returns `v` and leaves everything but RAM as it was. -/
def ReadsAs {α : Type} (m : CacheStateMachine) (x : M α) (v : α) : Prop :=
  wp x (fun a m' => a = v ∧ Coherent m' ∧ m'.db = m.db ∧ Still m m') (fun _ _ => False) m

theorem reads_find (hc : Coherent m) {α : Type} (absent : α) (f : Option (String × Option Int) → α)
    (hf : f none = absent) :
    ReadsAs m
      (do
        match ← getStore username with
        | none => pure absent
        | some store =>
          let (item, _) ← lookup store username key
          pure (f item))
      (f (m.db.reference.find username key)) := by
  unfold ReadsAs
  rw [wp_bind]
  refine wp_mono (wp_and (wp_getStore hc) (still_getStore username m (Still.refl m)))
    (fun r m' h => ?_) fun _ _ h => h.1.elim
  obtain ⟨⟨hc', hdb, hr⟩, hst⟩ := h
  cases r with
  | none =>
      refine ⟨?_, hc', hdb, hst⟩
      rw [Reference.find, Database.users_reference, hr]
      exact hf.symm
  | some s =>
      dsimp only
      rw [wp_bind]
      refine wp_mono (wp_and (wp_lookup hc' hr) (still_lookup s username key m' hst))
        (fun p m'' h => ?_) fun _ _ h => h.1.elim
      obtain ⟨⟨hc'', hdb', hr', hitem⟩, hst'⟩ := h
      refine ⟨?_, hc'', hdb'.trans hdb, hst'⟩
      have hu : m.db.users.get? username = some s.passwordHash := by
        rw [← hdb]
        exact (hc'.shown _ _ hr).hash
      rw [Reference.find, Database.users_reference, hu, hitem, hdb]
      rfl

theorem reads_getValue (hc : Coherent m) (atMs : Option Int) (nowMs : Int) :
    ReadsAs m (getValue username key atMs nowMs)
      (liveValue (m.db.reference.find username key)
        (atMs.elim nowMs fun t => if t = 0 then nowMs else t)) :=
  reads_find hc none (liveValue · _) rfl

theorem reads_keys (hc : Coherent m) (glob : String → String → Bool) (pattern : Option String)
    (nowMs : Int) :
    ReadsAs m (keys glob username pattern nowMs)
      (if (m.db.reference.users username).isSome then
        selectNames glob pattern (m.db.reference.liveKeys username nowMs) else []) := by
  unfold ReadsAs keys
  rw [wp_bind]
  refine wp_mono (wp_and (wp_getStore hc) (still_getStore username m (Still.refl m)))
    (fun r m' h => ?_) fun _ _ h => h.1.elim
  obtain ⟨⟨hc', hdb, hr⟩, hst⟩ := h
  cases r with
  | none =>
      refine ⟨?_, hc', hdb, hst⟩
      rw [Database.users_reference, hr]
      rfl
  | some s =>
      have hu : m.db.users.get? username = some s.passwordHash := by
        rw [← hdb]
        exact (hc'.shown _ _ hr).hash
      dsimp only
      rw [wp_bind, wp_get, if_pos hc'.useDb, wp_bind, wp_dbRead_quiet hc'.quiet, wp_pure]
      refine ⟨?_, hc', hdb, hst⟩
      rw [Database.users_reference, hu, Database.listKeys_eq, hdb]
      rfl

/-- One operation on a coherent machine is the reference's. -/
theorem wp_op_db (hc : Coherent m) (glob : String → String → Bool) (op : Op) :
    wp (op.run glob)
      (fun out m' => m.db.reference.step glob op m.sessions = .ok (out, m'.db.reference, m'.sessions) ∧
        Coherent m')
      (fun e m' => m.db.reference.step glob op m.sessions = .error e ∧ Shown m') m := by
  cases op with
  | apply entry =>
      unfold Op.run Reference.step
      dsimp only
      rw [wp_bind]
      refine wp_mono (wp_apply_db hc entry) (fun r m' h => ?_) fun e m' h => ?_
      · exact ⟨by rw [h.1]; rfl, h.2.1⟩
      · exact ⟨by rw [h.1]; rfl, h.2⟩
  | get username key atMs nowMs =>
      unfold Op.run Reference.step
      rw [wp_bind]
      refine wp_mono (reads_getValue hc atMs nowMs) (fun v m' h => ?_) fun _ _ h => h.elim
      obtain ⟨rfl, hc', hdb, hst⟩ := h
      exact ⟨by rw [hdb, hst.sessions], hc'⟩
  | has username key nowMs =>
      unfold Op.run Reference.step KvCache.has
      rw [wp_bind, wp_bind]
      refine wp_mono (reads_getValue hc none nowMs) (fun v m' h => ?_) fun _ _ h => h.elim
      obtain ⟨rfl, hc', hdb, hst⟩ := h
      exact ⟨by rw [hdb, hst.sessions]; rfl, hc'⟩
  | ttl username key nowMs =>
      unfold Op.run Reference.step
      rw [wp_bind]
      refine wp_mono (reads_find hc (-2) (secondsLeft · nowMs) rfl) (fun v m' h => ?_)
        fun _ _ h => h.elim
      obtain ⟨rfl, hc', hdb, hst⟩ := h
      exact ⟨by rw [hdb, hst.sessions], hc'⟩
  | keys username pattern nowMs =>
      unfold Op.run Reference.step
      rw [wp_bind]
      refine wp_mono (reads_keys hc glob pattern nowMs) (fun v m' h => ?_) fun _ _ h => h.elim
      obtain ⟨rfl, hc', hdb, hst⟩ := h
      exact ⟨by rw [hdb, hst.sessions], hc'⟩

/-- A run from a coherent machine is the reference's run. -/
theorem trace_db (hc : Coherent m) (glob : String → String → Bool) (ops : List Op) :
    (trace glob m ops).1 = Reference.trace glob m.db.reference m.sessions ops ∧
      Shown (trace glob m ops).2 := by
  induction ops generalizing m with
  | nil => exact ⟨rfl, hc.shown⟩
  | cons op ops ih =>
      have h := wp_op_db hc glob op
      unfold wp at h
      cases hrun : (op.run glob).run m with
      | ok out m' =>
          rw [hrun] at h
          obtain ⟨hstep, hc'⟩ := h
          rw [trace_cons_ok hrun, Reference.trace, hstep]
          exact ⟨congrArg (.ok out :: ·) (ih hc').1, (ih hc').2⟩
      | error e m' =>
          rw [hrun] at h
          obtain ⟨hstep, hs⟩ := h
          rw [trace_cons_error hrun, Reference.trace, hstep]
          exact ⟨rfl, hs⟩

/-! ## Startup -/

/-- Reading the users of a list, on top of stores that show the database. -/
theorem wp_readStores (hcap : 0 < m.capacity) (hq : m.faults = []) (hk : m.db.Keyed)
    {users : List (String × String)} (hu : ∀ p ∈ users, m.db.users.get? p.1 = some p.2)
    {stores : Stores}
    (hs : ∀ u s, stores.get? u = some s → s.ShownBy m.db u m.capacity) :
    wp (users.foldlM (fun stores p => do
        let store ← readStore p.1 p.2
        pure (stores.set p.1 store)) stores)
      (fun stores m' => m' = m ∧ ∀ u s, stores.get? u = some s → s.ShownBy m.db u m.capacity)
      (fun _ _ => False) m := by
  induction users generalizing stores with
  | nil => exact ⟨rfl, hs⟩
  | cons p users ih =>
      rw [List.foldlM_cons, wp_bind, wp_bind]
      refine wp_mono (wp_readStore hcap hq hk (hu p (by simp))) (fun store m' h => ?_)
        fun _ _ h => h
      obtain ⟨rfl, -, hstore⟩ := h
      refine ih (fun q hq => hu q (by simp [hq])) fun u s hs' => ?_
      rw [Dict.get?_set] at hs'
      split at hs'
      · next hup =>
          obtain rfl := Option.some.inj hs'
          exact hup ▸ hstore
      · exact hs u s hs'

/-- A machine that has read the database is coherent. -/
theorem wp_loadFromDb (hm : m.useDb = true) (hcap : 0 < m.capacity) (hq : m.faults = [])
    (hqs : m.sessionFaults = []) (hk : m.db.Keyed) :
    wp loadFromDb
      (fun _ m' => Coherent m' ∧ m'.db = m.db ∧ m'.capacity = m.capacity ∧
        readSessions m.db.loadSessions = .ok m'.sessions)
      (fun _ _ => ∀ sessions, readSessions m.db.loadSessions ≠ .ok sessions) m := by
  unfold loadFromDb
  rw [wp_tryCatch, wp_bind, wp_dbRead_quiet hq, wp_bind]
  unfold readStores
  refine wp_mono (wp_readStores hcap hq hk (fun p hp => Dict.get?_eq_some.mpr hp)
    fun u s hs => by simp at hs) (fun stores m' h => ?_) fun _ _ h => h.elim
  obtain ⟨rfl, hstores⟩ := h
  rw [wp_bind, wp_sessionCall]
  simp only [hqs, List.headD_nil, Bool.false_eq_true, if_false, List.tail_nil]
  cases hr : readSessions m'.db.loadSessions with
  | error e => exact fun _ h => by cases h
  | ok sessions => exact ⟨⟨hm, hcap, hq, rfl, hk, hstores⟩, rfl, rfl, rfl⟩

/-- With the database on, what happens to be in RAM shows nowhere: a machine
that has just been made, or has read its database at startup, gives the
outcomes of the reference for any applies and reads, and RAM holds only what
the database holds. -/
theorem ram_is_invisible (glob : String → String → Bool) {capacity : Nat} (hcap : 0 < capacity)
    {db : Database} (hk : db.Keyed) {m₀ : CacheStateMachine}
    (hboot : m₀ = { useDb := true, capacity, db } ∨
      loadFromDb.run { useDb := true, capacity, db } = .ok () m₀) (ops : List Op) :
    (trace glob m₀ ops).1 = Reference.trace glob db.reference m₀.sessions ops ∧
      ∀ u s k item, (trace glob m₀ ops).2.stores.get? u = some s → s.peek k = some item →
        (trace glob m₀ ops).2.db.getEntryWithExpiry u k = some item := by
  obtain ⟨hc, hdb⟩ : Coherent m₀ ∧ m₀.db = db := by
    rcases hboot with rfl | hrun
    · exact ⟨⟨rfl, hcap, rfl, rfl, hk, fun u s hs => by simp at hs⟩, rfl⟩
    · have h := wp_loadFromDb (m := { useDb := true, capacity, db }) rfl hcap rfl rfl hk
      rw [wp_of_run_ok hrun] at h
      exact ⟨h.1, h.2.1⟩
  obtain ⟨ht, hs⟩ := trace_db hc glob ops
  exact ⟨hdb ▸ ht, fun u s k item hst hp => (hs u s hst).keys k item hp⟩

end Coherent

/-- One key in RAM, two in the database. -/
def evictingOps : List Op :=
  [.apply ⟨1, 1, .write "SIGNUP h", "zoe", ""⟩, .apply ⟨1, 2, .write "SETEX a 900 1", "zoe", ""⟩,
   .apply ⟨1, 3, .write "SET b 2", "zoe", "c1:1"⟩, .keys "zoe" none 5,
   .apply ⟨1, 4, .write "PERSIST a 100", "zoe", ""⟩, .ttl "zoe" "a" 950]

theorem ram_is_invisible_evicting :
    Reference.trace (fun _ _ => true) (Database.empty [1, 2]).reference Dict.empty evictingOps
      = [.ok (.applied (.bool true)), .ok (.applied (.bool true)), .ok (.applied (.bool true)),
         .ok (.names ["a", "b"]), .ok (.applied (.bool true)), .ok (.seconds (-1))] :=
  (ram_is_invisible _ Nat.one_pos (fun _ => rfl) (Or.inl rfl) evictingOps).1.symm.trans
    (by decide +kernel)

end KvCache
