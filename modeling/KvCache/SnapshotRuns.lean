import KvCache.SnapshotTransfer

/-!
# Going on from a snapshot

A node that falls behind does not get the log that was cut off, it gets a
snapshot. From then on it applies the same entries as the node that wrote it,
and must give the same results (`snapshot_is_transparent`).

The restored machine is not the same as the one that wrote the snapshot. In RAM
its stores are built anew, least recently used key first; with a database the
tables are loaded in the order of the dump and the cache is empty. So the two
are related, not equal: in RAM store by store (`RamPair`), with a database
through the reference that both follow (`DbPair`). Either relation is kept by
one apply, which ends the same on both sides (`ramPair_apply`, `dbPair_apply`),
with the same result or raising the same; `SameEnd` is this for two
computations, and `sameEnd_applyLog` goes from one entry to a log.

The relations hold to begin with because the machine that writes has an
invariant: in RAM its stores are within their capacity and their expiry times
belong to keys (`TidyRam`), with a database its cache agrees with the tables
(`Coherent`) and its sessions with their rows (`Mirrored`). An apply keeps these
(`tidyRam_apply`, `wp_apply_db`), and `restore_ram` and `restore_db` turn them
into the relations.

`SameContents` is what a reader of the theorem cares about: users, keys, values,
expiry times and sessions, and in RAM the order of use, since it decides what is
evicted next.
-/

namespace KvCache

open StateWp

/-! ## Logs on one machine and on two -/

/-- What every apply of a log keeps, the log keeps. -/
theorem wp_applyLog_of_step {I : CacheStateMachine → Prop} (log : List LogEntry)
    (hstep : ∀ e ∈ log, ∀ m, I m → wp (apply e) (fun _ m' => I m') (fun _ _ => True) m)
    {m : CacheStateMachine} (h : I m) :
    wp (applyLog log) (fun _ m' => I m') (fun _ _ => True) m := by
  induction log generalizing m with
  | nil => exact h
  | cons e log ih =>
      rw [applyLog, wp_bind]
      refine wp_mono (hstep e (by simp) m h) ?_ (fun _ _ _ => trivial)
      intro r m' h'
      rw [wp_bind]
      refine wp_mono (ih (fun e' he' => hstep e' (by simp [he'])) h') ?_ (fun _ _ _ => trivial)
      intro rs m'' h''
      exact h''

/-- Two computations end the same: with the same value in related states,
or by raising the same. -/
def SameEnd {α : Type} (T : CacheStateMachine → CacheStateMachine → Prop) :
    EStateM.Result SmError CacheStateMachine α → EStateM.Result SmError CacheStateMachine α → Prop
  | .ok a m, .ok b m' => a = b ∧ T m m'
  | .error e _, .error e' _ => e = e'
  | _, _ => False

theorem SameEnd.mono {α : Type} {T T' : CacheStateMachine → CacheStateMachine → Prop}
    {x y : EStateM.Result SmError CacheStateMachine α} (h : SameEnd T x y)
    (hT : ∀ m m', T m m' → T' m m') : SameEnd T' x y := by
  cases x <;> cases y
  · exact ⟨h.1, hT _ _ h.2⟩
  · exact h
  · exact h
  · exact h

/-- A sequence ends the same if its parts do. -/
theorem SameEnd.bind {α β : Type} {T T' : CacheStateMachine → CacheStateMachine → Prop}
    {x y : M α} {f g : α → M β} {m m' : CacheStateMachine} (h : SameEnd T (x.run m) (y.run m'))
    (hf : ∀ a m m', T m m' → SameEnd T' ((f a).run m) ((g a).run m')) :
    SameEnd T' ((x >>= f).run m) ((y >>= g).run m') := by
  rw [EStateM.run_bind, EStateM.run_bind]
  generalize x.run m = p at h
  generalize y.run m' = q at h
  cases p with
  | error e m₁ =>
      cases q with
      | error e' m₂ => exact h
      | ok b m₂ => exact h.elim
  | ok a m₁ =>
      cases q with
      | error e' m₂ => exact h.elim
      | ok b m₂ =>
          obtain ⟨rfl, h'⟩ := h
          exact hf a m₁ m₂ h'

/-- Related machines end a log the same if they end every apply the same. -/
theorem sameEnd_applyLog {T : CacheStateMachine → CacheStateMachine → Prop} {log : List LogEntry}
    (hstep : ∀ e ∈ log, ∀ m m', T m m' → SameEnd T ((apply e).run m) ((apply e).run m'))
    {m m' : CacheStateMachine} (h : T m m') :
    SameEnd T ((applyLog log).run m) ((applyLog log).run m') := by
  induction log generalizing m m' with
  | nil => exact ⟨rfl, h⟩
  | cons e log ih =>
      rw [applyLog]
      refine (hstep e (by simp) m m' h).bind ?_
      intro r m₁ m₁' h₁
      refine (ih (fun e' he' => hstep e' (by simp [he'])) h₁).bind ?_
      intro rs m₂ m₂' h₂
      exact ⟨rfl, h₂⟩

/-! ## In RAM -/

/-- Two machines in RAM, the second rebuilt from the first. -/
structure RamPair (m m' : CacheStateMachine) : Prop where
  left : m.useDb = false
  right : m'.useDb = false
  capacity : m.capacity = m'.capacity
  sessions : m.sessions = m'.sessions
  stores : Dict.Rel Rebuilt m.stores m'.stores

/-- One apply in RAM: `ramApply` says what it does as a function of stores and
sessions, so the relation between the stores is all that matters. -/
theorem ramPair_apply {m m' : CacheStateMachine} (h : RamPair m m') (entry : LogEntry) :
    SameEnd RamPair ((apply entry).run m) ((apply entry).run m') := by
  have hrel : SameOutcome (fun p q => p.1 = q.1 ∧ Dict.Rel Rebuilt p.2.1 q.2.1 ∧ p.2.2 = q.2.2)
      (ramApply m.capacity entry m.stores m.sessions)
      (ramApply m.capacity entry m'.stores m.sessions) := by
    refine applyWith_rel h.stores ?_
    intro _
    unfold ramCommand
    cases entry.verb with
    | error e => rfl
    | ok verb => exact (storeSim_rebuilt m.capacity).verb h.stores fun _ _ _ _ _ _ _ => trivial
  have hl := run_apply_ram h.left entry
  have hr := run_apply_ram h.right entry
  rw [← h.capacity, ← h.sessions] at hr
  rw [hl, hr]
  generalize ramApply m.capacity entry m.stores m.sessions = x at hrel
  generalize ramApply m.capacity entry m'.stores m.sessions = y at hrel
  cases x with
  | error e =>
      cases y with
      | error e' => exact hrel
      | ok q => exact hrel.elim
  | ok p =>
      cases y with
      | error e' => exact hrel.elim
      | ok q => exact ⟨hrel.1, h.left, h.right, rfl, hrel.2.2, hrel.2.1⟩

/-- A machine in RAM whose stores are tidy. -/
structure TidyRam (capacity : Nat) (m : CacheStateMachine) : Prop where
  ram : m.useDb = false
  size : m.capacity = capacity
  stores : Tidy capacity m.stores

/-- The machine that will write the snapshot stays tidy. -/
theorem tidyRam_apply {capacity : Nat} {m : CacheStateMachine} (h : TidyRam capacity m)
    (entry : LogEntry) :
    wp (apply entry) (fun _ m' => TidyRam capacity m') (fun _ _ => True) m := by
  unfold wp
  rw [run_apply_ram h.ram entry]
  cases hp : ramApply m.capacity entry m.stores m.sessions with
  | error e => trivial
  | ok p =>
      obtain ⟨r, stores, sessions⟩ := p
      refine ⟨h.ram, h.size, applyWith_keeps h.stores ?_ hp⟩
      intro q hq
      unfold ramCommand at hq
      cases hv : entry.verb with
      | error e =>
          rw [hv] at hq
          cases hq
      | ok verb =>
          rw [hv, h.size] at hq
          exact tidy_verb h.stores hq

/-! ## With a database -/

/-- Two coherent machines whose databases hold the same data. -/
structure DbPair (m m' : CacheStateMachine) : Prop where
  left : Coherent m
  right : Coherent m'
  mirrored : Mirrored m
  mirrored' : Mirrored m'
  reference : m.db.reference = m'.db.reference
  sessions : m.sessions = m'.sessions

/-- One apply in front of a database: both machines follow the reference, which
is the same for both. -/
theorem dbPair_apply {m m' : CacheStateMachine} (h : DbPair m m') {entry : LogEntry}
    (hn : entry.Named) : SameEnd DbPair ((apply entry).run m) ((apply entry).run m') := by
  have hl := wp_apply_db h.left entry
  have hr := wp_apply_db h.right entry
  rw [← h.reference, ← h.sessions] at hr
  unfold wp at hl hr
  generalize (apply entry).run m = x at hl
  generalize (apply entry).run m' = y at hr
  cases x with
  | error e m₁ =>
      cases y with
      | error e' m₂ => exact Except.error.inj (hl.1.symm.trans hr.1)
      | ok b m₂ => cases hl.1.symm.trans hr.1
  | ok a m₁ =>
      cases y with
      | error e' m₂ => cases hl.1.symm.trans hr.1
      | ok b m₂ =>
          obtain ⟨hl₁, hl₂, -, hl₃⟩ := hl
          obtain ⟨hr₁, hr₂, -, hr₃⟩ := hr
          have heq := Except.ok.inj (hl₁.symm.trans hr₁)
          obtain ⟨hab, hrest⟩ := Prod.mk.inj heq
          obtain ⟨href, hss⟩ := Prod.mk.inj hrest
          exact ⟨hab, hl₂, hr₂, hl₃ h.mirrored hn, hr₃ h.mirrored' hn, href, hss⟩

/-- The tables of two machines that mirror the same sessions. -/
theorem DbPair.rows {m m' : CacheStateMachine} (h : DbPair m m') :
    m.db.sessions = m'.db.sessions := by
  have hl := h.mirrored.rows
  have hr := h.mirrored'.rows
  rw [← h.sessions] at hr
  unfold Dict.Rel at hl hr
  refine Dict.ext_items ?_
  generalize m.db.sessions.items = l at hl
  generalize m'.db.sessions.items = l' at hr
  generalize m.sessions.items = l₀ at hl hr
  induction hl generalizing l' with
  | nil =>
      cases hr
      rfl
  | cons hpq _ ih =>
      cases hr with
      | cons hpq' hrest =>
          exact congrArg₂ _ (Prod.ext (hpq.1.symm.trans hpq'.1) (hpq.2.trans hpq'.2.symm))
            (ih _ hrest)

/-! ## Transfer -/

/-- The same users and hashes, the same stored keys with the same values and
expiry times (in RAM also in the same order of use), and the same sessions. -/
structure SameContents (m m' : CacheStateMachine) : Prop where
  sessions : m.sessions = m'.sessions
  ram : m.useDb = false → Dict.Rel Rebuilt m.stores m'.stores
  db : m.useDb = true → m.db.reference = m'.db.reference ∧ m.db.sessions = m'.db.sessions

theorem RamPair.contents {m m' : CacheStateMachine} (h : RamPair m m') : SameContents m m' := by
  refine ⟨h.sessions, fun _ => h.stores, ?_⟩
  intro hm
  rw [h.left] at hm
  cases hm

theorem DbPair.contents {m m' : CacheStateMachine} (h : DbPair m m') : SameContents m m' := by
  refine ⟨h.sessions, ?_, fun _ => ⟨h.reference, h.rows⟩⟩
  intro hm
  rw [h.left.useDb] at hm
  cases hm

/-- A machine on empty tables. -/
def machineOf (useDb : Bool) (capacity : Nat) (clock : List Int) : CacheStateMachine :=
  { useDb, capacity, db := Database.empty clock }

theorem coherent_machineOf {capacity : Nat} (hc : 0 < capacity) (clock : List Int) :
    Coherent (machineOf true capacity clock) := by
  refine ⟨rfl, hc, rfl, rfl, fun _ => rfl, ?_⟩
  intro u s hs
  cases hs

/-- In RAM the stores are built anew from the lines of the snapshot. -/
theorem restore_ram {capacity : Nat} {m : CacheStateMachine} (h : TidyRam capacity m)
    (clock : List Int) :
    ∃ lines m₁, (snapshot).run m = .ok lines m ∧
      (restore lines).run (machineOf false capacity clock) = .ok () m₁ ∧ RamPair m m₁ := by
  have hsnap : (snapshot).run m = .ok (ramSnapshot m) m := by
    refine run_eq_ok ?_
    unfold snapshot
    rw [wp_bind, wp_get, if_neg (by simp [h.ram])]
    exact ⟨rfl, rfl⟩
  have hrestore : wp (restore (ramSnapshot m)) (fun _ m₁ => RamPair m m₁) (fun _ _ => False)
      (machineOf false capacity clock) := by
    have hrows := restores_ramSnapshot m (m := machineOf false capacity clock) h.stores
    unfold restore
    rw [wp_bind, wp_get, if_neg (by simp [machineOf]), wp_bind]
    refine wp_mono hrows ?_ (fun _ _ h => h)
    rintro ⟨stores, sessions⟩ m' ⟨rfl, hstores, hss⟩
    exact ⟨h.ram, rfl, h.size, hss.symm, hstores⟩
  unfold wp at hrestore
  split at hrestore
  · next m₁ hrun => exact ⟨_, m₁, hsnap, hrun, hrestore⟩
  · exact hrestore.elim

/-- A machine that restores the dump of another one's tables holds the same
data, and reads the sessions from the same rows. -/
theorem wp_restore_dumpTo {m m₁ : CacheStateMachine} (hc : Coherent m) (h : Coherent m₁) :
    wp (restore m₁.db.dumpTo)
      (fun _ m' => Coherent m' ∧ m'.db.reference = m₁.db.reference ∧
        m'.db.sessions = m₁.db.sessions ∧
        readSessions m₁.db.loadSessions = .ok m'.sessions)
      (fun _ _ => ∀ sessions, readSessions m₁.db.loadSessions ≠ .ok sessions) m := by
  obtain ⟨db, hdb, -, href, hrows⟩ := Database.replaceFrom_dumpTo m₁.db m.db
  have hcall : (m.db.replaceFrom m₁.db.dumpTo).map (((), ·) : Database → _) = .ok ((), db) := by
    rw [hdb]
    rfl
  have hk : db.Keyed := by
    intro u
    rw [href]
    exact h.keyed u
  have hload : db.loadSessions = m₁.db.loadSessions := by
    unfold Database.loadSessions
    rw [hrows]
  unfold restore
  rw [wp_bind, wp_get, if_pos hc.useDb, wp_bind, wp_dbCall_quiet hc.quiet hcall]
  refine wp_mono (wp_loadFromDb (m := { m with db }) hc.useDb hc.capacity hc.quiet
    hc.quietSessions hk) ?_ ?_
  · rintro _ m' ⟨hc', hdb', -, hread⟩
    refine ⟨hc', ?_, ?_, ?_⟩
    · rw [hdb']
      exact href
    · rw [hdb']
      exact hrows
    · rw [← hload]
      exact hread
  · intro e m' herr
    rw [← hload]
    exact herr

/-- With a database the tables are replaced, and the sessions are read back from
their rows. -/
theorem restore_db {capacity : Nat} (hc : 0 < capacity) {m : CacheStateMachine}
    (h : Coherent m) (hm : Mirrored m) (clock : List Int) :
    ∃ lines m₁, (snapshot).run m = .ok lines m ∧
      (restore lines).run (machineOf true capacity clock) = .ok () m₁ ∧ DbPair m m₁ := by
  have hsnap : (snapshot).run m = .ok m.db.dumpTo m := by
    refine run_eq_ok ?_
    unfold snapshot
    rw [wp_bind, wp_get, if_pos h.useDb, wp_dbRead_quiet h.quiet]
    exact ⟨rfl, rfl⟩
  have hrestore := wp_restore_dumpTo (coherent_machineOf hc clock) h
  unfold wp at hrestore
  split at hrestore
  · next m₁ hrun =>
      obtain ⟨hc₁, href, hrows, hread⟩ := hrestore
      refine ⟨_, m₁, hsnap, hrun, h, hc₁, hm, ?_, href.symm, ?_⟩
      · exact hm.of_rows hrows (Except.ok.inj (hread.symm.trans (readSessions_rows hm.rows)))
      · exact Except.ok.inj ((readSessions_rows hm.rows).symm.trans hread)
  · exact absurd (readSessions_rows hm.rows) (hrestore _)

/-- Snapshot transfer is transparent: the snapshot written after the first
part of a log, restored by a fresh machine of the same mode and capacity,
gives a machine with the same contents that applies the rest with the same
results and ends with the same contents. -/
theorem snapshot_is_transparent {useDb : Bool} {capacity : Nat}
    (hc : useDb = true → 0 < capacity) (clock clock' : List Int) {log done rest : List LogEntry}
    (hlog : log = done ++ rest) (hnamed : ∀ e ∈ log, e.Named) {rs : List Result}
    {m : CacheStateMachine}
    (hdone : (applyLog done).run (machineOf useDb capacity clock) = .ok rs m) :
    ∃ lines m₁, (snapshot).run m = .ok lines m ∧
      (restore lines).run (machineOf useDb capacity clock') = .ok () m₁ ∧ SameContents m m₁ ∧
      SameEnd SameContents ((applyLog rest).run m) ((applyLog rest).run m₁) := by
  cases useDb with
  | false =>
      have htidy : TidyRam capacity m := by
        have h := wp_applyLog_of_step done (fun e _ m h => tidyRam_apply h e)
          (show TidyRam capacity (machineOf false capacity clock) from ⟨rfl, rfl, tidy_empty⟩)
        rwa [wp_of_run_ok hdone] at h
      obtain ⟨lines, m₁, hsnap, hrestore, hpair⟩ := restore_ram htidy clock'
      refine ⟨lines, m₁, hsnap, hrestore, hpair.contents, ?_⟩
      exact (sameEnd_applyLog (fun e _ m m' h => ramPair_apply h e) hpair).mono
        fun _ _ h => h.contents
  | true =>
      have hboth : Coherent m ∧ Mirrored m := by
        have hfresh : Coherent (machineOf true capacity clock) ∧
            Mirrored (machineOf true capacity clock) :=
          ⟨coherent_machineOf (hc rfl) clock, Dict.rel_empty, rfl⟩
        have h := wp_applyLog_of_step (I := fun m => Coherent m ∧ Mirrored m) done
          (fun e he m h => wp_mono (wp_apply_db h.1 e)
            (fun _ _ h' => ⟨h'.2.1, h'.2.2.2 h.2 (hnamed e (by simp [hlog, he]))⟩)
            fun _ _ _ => trivial) hfresh
        rwa [wp_of_run_ok hdone] at h
      obtain ⟨lines, m₁, hsnap, hrestore, hpair⟩ := restore_db (hc rfl) hboth.1 hboth.2 clock'
      refine ⟨lines, m₁, hsnap, hrestore, hpair.contents, ?_⟩
      exact (sameEnd_applyLog (fun e he m m' h => dbPair_apply h (hnamed e (by simp [hlog, he])))
        hpair).mono fun _ _ h => h.contents

/-- A key that was evicted with its expiry time still there, then a sweep at
a later time and a retry. -/
def evictedLog : List LogEntry :=
  [⟨1, 1, .write "SIGNUP h", "zoe", ""⟩, ⟨1, 2, .write "SETEX a 900 1", "zoe", ""⟩,
   ⟨1, 3, .write "SET b 2", "zoe", "c1:1"⟩]

def afterEviction : List LogEntry :=
  [⟨1, 4, .write "SWEEP 950", "", ""⟩, ⟨1, 5, .write "SET b 2", "zoe", "c1:1"⟩]

theorem snapshot_is_transparent_evicted :
    ∃ lines m₁,
      (snapshot).run (after (applyLog evictedLog) (machineOf false 1 []))
        = .ok lines (after (applyLog evictedLog) (machineOf false 1 [])) ∧
      (restore lines).run (machineOf false 1 []) = .ok () m₁ ∧
      SameContents (after (applyLog evictedLog) (machineOf false 1 [])) m₁ ∧
      SameEnd SameContents
        ((applyLog afterEviction).run (after (applyLog evictedLog) (machineOf false 1 [])))
        ((applyLog afterEviction).run m₁) := by
  have hrun : (applyLog evictedLog).run (machineOf false 1 [])
      = .ok [.bool true, .bool true, .bool true]
          (after (applyLog evictedLog) (machineOf false 1 [])) :=
    run_eq_of_value? (by decide +kernel)
  have hrequests : ∀ e ∈ evictedLog ++ afterEviction,
      e.request = none ∨ e.request = some ⟨"c1", 1⟩ := by decide +kernel
  refine snapshot_is_transparent (by intro h; cases h) [] [] rfl ?_ hrun
  intro e he id hid
  rcases hrequests e he with h | h
  · rw [h] at hid
    cases hid
  · rw [h] at hid
    obtain rfl := Option.some.inj hid
    decide

end KvCache
