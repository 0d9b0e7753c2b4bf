import KvCache.SnapshotRuns

/-!
# Sweeps

A SWEEP deletes what has expired, in the database and in RAM, and reports how
many keys went. Nothing else of it can be seen (`sweep_is_unobservable`): after
a sweep at `t` every later read at or after `t` and every later command stamped
at or after `t` gives what it would have given without the sweep.

The proof is about the reference of `Reference`, which a machine in front of a
database follows. Two references agree from `t` on if sweeping them at `t` makes
them equal (`Reference.AgreeFrom`); sweeping twice is sweeping once, so a
reference agrees with its own sweep. What is left of an item at `t` (`liveAt`)
determines every answer at a time `n ≥ t`, since what has expired at `t` has
expired at `n` (`expired_mono`): a value, a remaining time, whether a DELETE or
an EXPIREAT finds the key. So one operation from `t` on keeps the agreement and
gives the same outcome on both sides (`Reference.AgreeFrom.step`), and an
induction over the operations gives all of them (`Reference.AgreeFrom.trace`).

Two verbs are left out by `Verb.From`: a SWEEP, whose result counts what is
there, and a DELETE without a time, which does not look at the expiry time.

`next_expiry`, by which the leader decides when to sweep again, lies after `t`
when the sweep is done (`nextExpiry_of_sweep`).

The states are those that a node with a database can be in (`DbReachable`), so
that the cache in RAM agrees with the tables before the sweep and after it.
-/

namespace KvCache

open StateWp

/-! ## The next expiry -/

/-- The earliest expiry time of any key. -/
def Database.nextExpiry (db : Database) : Option Int :=
  (db.entries.items.filterMap fun p => p.2.expireAt).min?

/-- The earliest expiry time of any key (the leader sweeps once it passes). -/
def nextExpiry : M (Option Int) := do
  let m ← get
  if m.useDb then dbRead (·.nextExpiry)
  else
    pure (m.stores.values.foldl (fun earliest s =>
      match s.expiry.values.min? with
      | none => earliest
      | some first => some (earliest.elim first fun t => min t first)) none)

/-- After a sweep every expiry time is still to come. -/
theorem nextExpiry_of_sweep {db : Database} {r : Reference} {atMs first : Int}
    (h : db.reference = r.sweep atMs) (hf : db.nextExpiry = some first) : atMs < first := by
  have hmem := List.min?_mem hf
  obtain ⟨⟨⟨u, k⟩, row⟩, hp, he⟩ := List.mem_filterMap.mp hmem
  have hitem : db.reference.entries u k = some (row.value, row.expireAt) := by
    rw [Database.entries_reference, Dict.get?_eq_some.mpr hp]
    rfl
  rw [h] at hitem
  have hlive := (Option.filter_eq_some_iff.mp hitem).2
  dsimp only at he
  simpa [he, expired] using hlive

/-! ## Machines that differ in what has expired -/

/-- What is left of an item at a time. -/
def liveAt (t : Int) (item : Option (String × Option Int)) : Option (String × Option Int) :=
  item.filter fun p => !expired p.2 t

/-- Two references that a sweep makes equal. -/
def Reference.AgreeFrom (t : Int) (r r' : Reference) : Prop := r.sweep t = r'.sweep t

section AgreeFrom

variable {t n : Int} {r r' : Reference}

/-- Time only adds to what has expired. -/
theorem expired_mono {expireAt : Option Int} (hn : t ≤ n) (h : expired expireAt t = true) :
    expired expireAt n = true := by
  cases expireAt with
  | none => cases h
  | some e =>
      simp only [expired, decide_eq_true_eq] at h ⊢
      omega

/-- Sweeping twice is sweeping once, so a reference agrees with its own sweep. -/
theorem sweep_sweep (r : Reference) (t : Int) : (r.sweep t).sweep t = r.sweep t := by
  refine Reference.ext' (fun _ => rfl) fun u k => ?_
  simp only [Reference.sweep]
  cases r.entries u k with
  | none => rfl
  | some p => by_cases h : expired p.2 t = true <;> simp [Option.filter, h]

theorem Reference.AgreeFrom.users (h : r.AgreeFrom t r') (u : String) : r.users u = r'.users u :=
  congrFun (congrArg Reference.users h) u

theorem Reference.AgreeFrom.item (h : r.AgreeFrom t r') (u k : String) :
    liveAt t (r.entries u k) = liveAt t (r'.entries u k) :=
  congrFun (congrFun (congrArg Reference.entries h) u) k

/-- An item that is live later is live now. -/
theorem liveAt_of_live {item : Option (String × Option Int)} {p : String × Option Int}
    (hn : t ≤ n) (hp : item = some p) (h : expired p.2 n = false) : liveAt t item = item := by
  rw [hp]
  have ht : expired p.2 t = false := by
    cases he : expired p.2 t with
    | false => rfl
    | true =>
        rw [expired_mono hn he] at h
        cases h
  simp [liveAt, Option.filter, ht]

/-- Whether a DELETE finds the key depends on what is live only; likewise for
the three other questions below. -/
theorem existedAt_liveAt (item : Option (String × Option Int)) (hn : t ≤ n) :
    existedAt (liveAt t item) (some n) = existedAt item (some n) := by
  cases item with
  | none => rfl
  | some p =>
      by_cases h : expired p.2 t = true
      · simp [liveAt, Option.filter, h, existedAt, expired_mono hn h]
      · simp [liveAt, Option.filter, h]

theorem refusesExpiry_liveAt (item : Option (String × Option Int)) (expireAt : Option Int)
    (hn : t ≤ n) : refusesExpiry (liveAt t item) expireAt n = refusesExpiry item expireAt n := by
  cases item with
  | none => rfl
  | some p =>
      by_cases h : expired p.2 t = true
      · simp [liveAt, Option.filter, h, refusesExpiry, expired_mono hn h]
      · simp [liveAt, Option.filter, h]

theorem liveValue_liveAt (item : Option (String × Option Int)) (hn : t ≤ n) :
    liveValue (liveAt t item) n = liveValue item n := by
  cases item with
  | none => rfl
  | some p =>
      by_cases h : expired p.2 t = true
      · simp [liveAt, Option.filter, h, liveValue, expired_mono hn h]
      · simp [liveAt, Option.filter, h]

theorem secondsLeft_liveAt (item : Option (String × Option Int)) (hn : t ≤ n) :
    secondsLeft (liveAt t item) n = secondsLeft item n := by
  cases item with
  | none => rfl
  | some p =>
      by_cases h : expired p.2 t = true
      · simp [liveAt, Option.filter, h, secondsLeft, expired_mono hn h]
      · simp [liveAt, Option.filter, h]

/-- The same item for one key, as far as it is live. -/
theorem Reference.AgreeFrom.update (h : r.AgreeFrom t r') (u k : String)
    {item item' : Option (String × Option Int)} (hi : liveAt t item = liveAt t item') :
    (r.update u k item).AgreeFrom t (r'.update u k item') := by
  refine Reference.ext' (fun v => h.users v) fun v j => ?_
  simp only [Reference.sweep, Reference.update]
  split
  · exact hi
  · exact h.item v j

/-- What a user has under a key is the same, as far as it is live. -/
theorem Reference.AgreeFrom.find (h : r.AgreeFrom t r') (u k : String) :
    liveAt t (r.find u k) = liveAt t (r'.find u k) := by
  unfold Reference.find
  rw [h.users]
  cases r'.users u with
  | none => rfl
  | some _ => exact h.item u k

/-- The same keys are live, each side being contained in the other. -/
theorem Reference.AgreeFrom.live (h : r.AgreeFrom t r') (u : String) (hn : t ≤ n) :
    r.live u n = r'.live u n := by
  have hsub : ∀ {r r' : Reference}, r.AgreeFrom t r' → r.live u n ⊆ r'.live u n := by
    rintro r r' h k ⟨v, e, hk, he⟩
    have hl := liveAt_of_live hn hk he
    have hitem := h.item u k
    rw [hl, hk] at hitem
    exact ⟨v, e, (Option.filter_eq_some_iff.mp hitem.symm).1, he⟩
  exact Set.Subset.antisymm (hsub h) (hsub h.symm)

theorem Reference.AgreeFrom.liveKeys (h : r.AgreeFrom t r') (u : String) (hn : t ≤ n) :
    r.liveKeys u n = r'.liveKeys u n := by
  have hlive := h.live u hn
  unfold Reference.liveKeys
  generalize r.live u n = live at hlive ⊢
  subst hlive
  rfl

end AgreeFrom

/-! ## Operations from a time on -/

/-- Is this verb stamped with a time from `t` on? A sweep counts what has
expired, and a DELETE without a time does not look at the expiry time. -/
def Verb.From (t : Int) : Verb → Prop
  | .signup _ => True
  | .set _ _ _ => True
  | .delete _ atMs => ∃ n, atMs = some n ∧ t ≤ n
  | .expiry _ _ atMs => t ≤ atMs
  | .sweep _ => False
  | .unknown => True

def Op.From (t : Int) : Op → Prop
  | .apply entry => ∀ verb, entry.verb = .ok verb → verb.From t
  | .get _ _ atMs nowMs => t ≤ atMs.elim nowMs fun n => if n = 0 then nowMs else n
  | .has _ _ nowMs => t ≤ nowMs
  | .ttl _ _ nowMs => t ≤ nowMs
  | .keys _ _ nowMs => t ≤ nowMs

/-- One verb stamped with a time from `t` on: the same result, and the references
agree afterwards. -/
theorem Reference.AgreeFrom.run {t : Int} {r r' : Reference} (h : r.AgreeFrom t r')
    {verb : Verb} (hv : verb.From t) (username : String) :
    SameOutcome (fun p q => p.1 = q.1 ∧ p.2.AgreeFrom t q.2)
      (r.run username verb) (r'.run username verb) := by
  have hu := h.users username
  cases verb with
  | signup passwordHash =>
      simp only [Reference.run, hu]
      cases r'.users username with
      | some _ => exact ⟨rfl, h⟩
      | none =>
          refine ⟨rfl, Reference.ext' (fun u => ?_) fun u k => h.item u k⟩
          simp only [Reference.sweep, h.users u]
  | set key value expireAt =>
      simp only [Reference.run, hu]
      cases r'.users username with
      | none => exact ⟨rfl, h⟩
      | some _ =>
          by_cases hk : key = ""
          · simp only [hk, if_true]
            rfl
          · simp only [hk, if_false]
            exact ⟨rfl, h.update _ _ rfl⟩
  | delete key atMs =>
      obtain ⟨n, rfl, hn⟩ := hv
      simp only [Reference.run, hu]
      cases r'.users username with
      | none => exact ⟨rfl, h⟩
      | some _ =>
          refine ⟨?_, h.update _ _ rfl⟩
          rw [← existedAt_liveAt _ hn, h.item, existedAt_liveAt _ hn]
  | expiry key expireAt n =>
      have href : refusesExpiry (r.entries username key) expireAt n
          = refusesExpiry (r'.entries username key) expireAt n := by
        rw [← refusesExpiry_liveAt _ _ hv, h.item, refusesExpiry_liveAt _ _ hv]
      simp only [Reference.run, hu, href]
      cases r'.users username with
      | none => exact ⟨rfl, h⟩
      | some _ =>
          dsimp only
          split
          · exact ⟨rfl, h⟩
          · next hr =>
              -- what is not refused is live, so both machines have it
              have hitem : r.entries username key = r'.entries username key := by
                cases hi : r'.entries username key with
                | none => simp [hi, refusesExpiry] at hr
                | some p =>
                    have hlive : expired p.2 n = false := by
                      cases he : expired p.2 n with
                      | false => rfl
                      | true => simp [hi, refusesExpiry, he] at hr
                    have hl := h.item username key
                    rw [liveAt_of_live hv hi hlive, hi] at hl
                    exact (Option.filter_eq_some_iff.mp hl).1
              exact ⟨rfl, h.update _ _ (by rw [hitem])⟩
  | sweep atMs => exact hv.elim
  | unknown => exact ⟨rfl, h⟩

/-- One operation, with the session table in front of it. A read leaves the
references as they are. -/
theorem Reference.AgreeFrom.step {t : Int} {r r' : Reference} (h : r.AgreeFrom t r') {op : Op}
    (hop : op.From t) (glob : String → String → Bool) (sessions : Sessions) :
    SameOutcome (fun p q => p.1 = q.1 ∧ p.2.1.AgreeFrom t q.2.1 ∧ p.2.2 = q.2.2)
      (r.step glob op sessions) (r'.step glob op sessions) := by
  cases op with
  | apply entry =>
      unfold Reference.step
      refine SameOutcome.map (applyWith_rel h fun _ => ?_) fun p q hpq =>
        ⟨congrArg Output.applied hpq.1, hpq.2⟩
      unfold Reference.command
      cases hv : entry.verb with
      | error e => rfl
      | ok verb => exact h.run (hop verb hv) entry.username
  | get username key atMs nowMs =>
      refine ⟨?_, h, rfl⟩
      dsimp only
      rw [← liveValue_liveAt _ hop, h.find, liveValue_liveAt _ hop]
  | has username key nowMs =>
      refine ⟨?_, h, rfl⟩
      dsimp only
      rw [← liveValue_liveAt _ hop, h.find, liveValue_liveAt _ hop]
  | ttl username key nowMs =>
      refine ⟨?_, h, rfl⟩
      dsimp only
      rw [← secondsLeft_liveAt _ hop, h.find, secondsLeft_liveAt _ hop]
  | keys username pattern nowMs =>
      refine ⟨?_, h, rfl⟩
      dsimp only
      rw [h.users username, h.liveKeys username hop]

/-- All operations, up to one that raises: it raises on both sides. -/
theorem Reference.AgreeFrom.trace {t : Int} {r r' : Reference} (h : r.AgreeFrom t r')
    (glob : String → String → Bool) (sessions : Sessions) {ops : List Op}
    (hops : ∀ op ∈ ops, op.From t) :
    Reference.trace glob r sessions ops = Reference.trace glob r' sessions ops := by
  induction ops generalizing r r' sessions with
  | nil => rfl
  | cons op ops ih =>
      have hs := h.step (hops op (by simp)) glob sessions
      unfold Reference.trace
      generalize r.step glob op sessions = x at hs
      generalize r'.step glob op sessions = y at hs
      cases x with
      | error e =>
          cases y with
          | error e' => exact congrArg (fun e => [Except.error e]) hs
          | ok q => exact hs.elim
      | ok p =>
          cases y with
          | error e' => exact hs.elim
          | ok q =>
              obtain ⟨out, r₁, ss₁⟩ := p
              obtain ⟨out', r₂, ss₂⟩ := q
              obtain ⟨rfl, hr, rfl⟩ := hs
              exact congrArg (Except.ok out :: ·) (ih hr ss₁ fun op' h' => hops op' (by simp [h']))

/-! ## Sweeping -/

/-- The states of a machine in front of a database: made on any database
without a key of empty name, or on the database of another such state after
a restart, then used, or overwritten with the snapshot of another such
state. -/
inductive DbReachable (glob : String → String → Bool) : CacheStateMachine → Prop where
  | made {capacity : Nat} {db : Database} : 0 < capacity → db.Keyed →
      DbReachable glob { useDb := true, capacity, db }
  | op {m m' : CacheStateMachine} {op : Op} {out : Output} : DbReachable glob m →
      (op.run glob).run m = .ok out m' → DbReachable glob m'
  | restarted {m m' : CacheStateMachine} {capacity : Nat} : DbReachable glob m → 0 < capacity →
      loadFromDb.run { useDb := true, capacity, db := m.db } = .ok () m' → DbReachable glob m'
  | restored {m m₁ m' : CacheStateMachine} : DbReachable glob m → DbReachable glob m₁ →
      (restore m₁.db.dumpTo).run m = .ok () m' → DbReachable glob m'

/-- In all these states RAM and database agree. -/
theorem DbReachable.coherent {glob : String → String → Bool} {m : CacheStateMachine}
    (h : DbReachable glob m) : Coherent m := by
  induction h with
  | made hcap hk => exact ⟨rfl, hcap, rfl, rfl, hk, fun u s hs => by cases hs⟩
  | @op m m' op out _ hrun ih =>
      have hop := wp_op_db ih glob op
      rw [wp_of_run_ok hrun] at hop
      exact hop.2
  | @restarted m m' capacity _ hcap hrun ih =>
      have hload := wp_loadFromDb (m := { useDb := true, capacity, db := m.db }) rfl hcap rfl rfl
        ih.keyed
      rw [wp_of_run_ok hrun] at hload
      exact hload.1
  | @restored m m₁ m' _ _ hrun ih ih₁ =>
      have hrestore := wp_restore_dumpTo ih ih₁
      rw [wp_of_run_ok hrun] at hrestore
      exact hrestore.1

/-- Operations that return lead from one such state to another. -/
theorem DbReachable.ops {glob : String → String → Bool} {m : CacheStateMachine}
    (h : DbReachable glob m) (ops : List Op) (hok : ∀ out ∈ (trace glob m ops).1, out.toBool = true) :
    DbReachable glob (trace glob m ops).2 := by
  induction ops generalizing m with
  | nil => exact h
  | cons op ops ih =>
      cases hrun : (op.run glob).run m with
      | ok out m' =>
          rw [trace_cons_ok hrun] at hok ⊢
          exact ih (h.op hrun) fun out' hout => hok out' (by simp [hout])
      | error e m' =>
          rw [trace_cons_error hrun] at hok
          have := hok (.error e) (by simp)
          cases this

/-- A SWEEP shows in no answer to a later read and in no result of a later
command, removes no key that has not expired, and leaves nothing that has
expired already. -/
theorem sweep_is_unobservable {glob : String → String → Bool} {m : CacheStateMachine}
    (h : DbReachable glob m) (t : Int) :
    ∃ n m', (applySweep t).run m = .ok n m' ∧
      (∀ ops : List Op, (∀ op ∈ ops, op.From t) → (trace glob m ops).1 = (trace glob m' ops).1) ∧
      (∀ u k v e, m.db.getEntryWithExpiry u k = some (v, e) → expired e t = false →
        m'.db.getEntryWithExpiry u k = some (v, e)) ∧
      ∃ next, (nextExpiry).run m' = .ok next m' ∧ ∀ first, next = some first → t < first := by
  have hc := h.coherent
  have hsweep : MatchesVerb m "" (.sweep t) (Verb.run "" (.sweep t)) := matches_sweep hc t
  have hstill := still_applySweep t m (Still.refl m)
  unfold MatchesVerb Verb.run at hsweep
  rw [wp_bind] at hsweep
  unfold wp at hsweep hstill
  cases hrun : (applySweep t).run m with
  | error e m' =>
      rw [hrun] at hsweep
      cases hsweep.1
  | ok n m' =>
      rw [hrun] at hsweep hstill
      obtain ⟨hrun', hc'⟩ := hsweep
      have href : m'.db.reference = m.db.reference.sweep t :=
        (Prod.mk.inj (Except.ok.inj hrun')).2.symm
      refine ⟨n, m', rfl, ?_, ?_, m'.db.nextExpiry, ?_, ?_⟩
      · intro ops hops
        have hagree : m.db.reference.AgreeFrom t m'.db.reference := by
          unfold Reference.AgreeFrom
          rw [href, sweep_sweep]
        rw [(trace_db hc glob ops).1, (trace_db hc' glob ops).1, hstill.sessions]
        exact hagree.trace glob _ hops
      · intro u k v e hk he
        have hitem : m'.db.reference.entries u k = (m.db.reference.sweep t).entries u k := by
          rw [href]
        refine hitem.trans ?_
        change (m.db.reference.entries u k).filter _ = _
        rw [show m.db.reference.entries u k = some (v, e) from hk]
        simp [Option.filter, he]
      · refine run_eq_ok ?_
        unfold nextExpiry
        rw [wp_bind, wp_get, if_pos hc'.useDb, wp_dbRead_quiet hc'.quiet]
        exact ⟨rfl, rfl⟩
      · intro first hf
        exact nextExpiry_of_sweep href hf

/-- A key that has expired and one that has not. -/
def beforeSweep : List Op :=
  [.apply ⟨1, 1, .write "SIGNUP h", "zoe", ""⟩, .apply ⟨1, 2, .write "SETEX a 900 1", "zoe", ""⟩,
   .apply ⟨1, 3, .write "SETEX b 999 2", "zoe", "c1:1"⟩, .get "zoe" "a" none 5]

theorem sweep_is_unobservable_twoKeys :
    ∃ n m', (applySweep 950).run (trace (fun _ _ => true) (machineOf true 1 []) beforeSweep).2
        = .ok n m' ∧
      (trace (fun _ _ => true) (trace (fun _ _ => true) (machineOf true 1 []) beforeSweep).2
        [.keys "zoe" none 950, .apply ⟨1, 4, .write "DELETE a 950", "zoe", "c1:2"⟩]).1
        = (trace (fun _ _ => true) m'
        [.keys "zoe" none 950, .apply ⟨1, 4, .write "DELETE a 950", "zoe", "c1:2"⟩]).1 := by
  have hmade : DbReachable (fun _ _ => true) (machineOf true 1 []) :=
    .made Nat.one_pos fun _ => rfl
  obtain ⟨n, m', hrun, hops, -⟩ :=
    sweep_is_unobservable (hmade.ops beforeSweep (by decide +kernel)) 950
  refine ⟨n, m', hrun, hops _ ?_⟩
  intro op hop
  rcases List.mem_cons.mp hop with rfl | hop
  · exact le_refl _
  · obtain rfl := List.mem_singleton.mp hop
    intro verb hv
    have hverb : LogEntry.verb ⟨1, 4, .write "DELETE a 950", "zoe", "c1:2"⟩
        = .ok (.delete "a" (some 950)) := by decide +kernel
    obtain rfl := Except.ok.inj (hverb.symm.trans hv)
    exact ⟨950, rfl, le_refl _⟩

end KvCache
