import Mathlib.Data.Finset.Card
import KvCache.StateMachine

/-!
# Exactly-once writes

The session table over a whole log. No command touches it (`Still`), so
`apply` changes it in one place, after a command has run; and as long as it
has room for every client of the log, it says of each client which of its
requests so far has the largest number and what that request answered
(`Remembers`). Hence a request runs exactly where it is the newest of its
client (`exactly_once_writes`).
-/

namespace KvCache

open StateWp

/-! ## What commands leave alone -/

/-- The parts of a machine no command changes. -/
structure Still (m₀ m : CacheStateMachine) : Prop where
  useDb : m.useDb = m₀.useDb
  capacity : m.capacity = m₀.capacity
  sessions : m.sessions = m₀.sessions
  sessionFaults : m.sessionFaults = m₀.sessionFaults
  rows : m.db.sessions = m₀.db.sessions

theorem Still.refl (m : CacheStateMachine) : Still m m := ⟨rfl, rfl, rfl, rfl, rfl⟩

theorem Still.trans {m₁ m₂ m₃ : CacheStateMachine} (h : Still m₁ m₂) (h' : Still m₂ m₃) :
    Still m₁ m₃ :=
  ⟨h'.1.trans h.1, h'.2.trans h.2, h'.3.trans h.3, h'.4.trans h.4, h'.5.trans h.5⟩

section Still

variable {m₀ : CacheStateMachine}

theorem still_dbCall {α : Type} {f : Database → Except SmError (α × Database)}
    (hf : ∀ db p, f db = .ok p → p.2.sessions = db.sessions) : Keeps (Still m₀) (dbCall f) := by
  intro m hm
  unfold dbCall
  simp only [wp_bind, wp_get, wp_set, wp_ite, wp_throw]
  split
  · exact ⟨hm.1, hm.2, hm.3, hm.4, hm.5⟩
  · cases h : f m.db with
    | error e => exact ⟨hm.1, hm.2, hm.3, hm.4, hm.5⟩
    | ok p => exact ⟨hm.1, hm.2, hm.3, hm.4, (hf _ p h).trans hm.5⟩

theorem still_dbRead {α : Type} (f : Database → α) : Keeps (Still m₀) (dbRead f) := by
  refine still_dbCall fun db p h => ?_
  cases h
  rfl

theorem still_dbWrite {f : Database → Database} (hf : ∀ db, (f db).sessions = db.sessions) :
    Keeps (Still m₀) (dbWrite f) := by
  refine still_dbCall fun db p h => ?_
  cases h
  exact hf db

theorem still_cacheSet (store : Store) (key value : String) :
    Keeps (Still m₀) (store.cacheSet key value) := by
  unfold Store.cacheSet
  exact keeps_ite (keeps_throw _) (keeps_pure _)

theorem still_newStore (username passwordHash : String) :
    Keeps (Still m₀) (newStore username passwordHash) := by
  intro m hm
  unfold newStore
  rw [wp_bind, wp_get]
  split
  · exact hm
  · exact hm

theorem still_putStore (username : String) (store : Store) :
    Keeps (Still m₀) (putStore username store) :=
  fun _ hm => ⟨hm.1, hm.2, hm.3, hm.4, hm.5⟩

theorem still_fill (store : Store) (l : List (String × String)) :
    Keeps (Still m₀) (store.fill l) := by
  induction l generalizing store with
  | nil => exact keeps_pure _
  | cons p l ih => exact keeps_bind (still_cacheSet _ _ _) fun cache => ih _

theorem still_readStore (username passwordHash : String) :
    Keeps (Still m₀) (readStore username passwordHash) :=
  keeps_bind keeps_get fun _ => keeps_bind (still_newStore _ _) fun _ =>
    keeps_bind (still_dbRead _) fun _ => keeps_bind (still_fill _ _) fun _ =>
      keeps_bind (still_dbRead _) fun _ => keeps_pure _

theorem still_loadUserFromDb (username : String) :
    Keeps (Still m₀) (loadUserFromDb username) := by
  refine keeps_bind (still_dbRead _) fun user => ?_
  cases user with
  | none => exact keeps_pure _
  | some passwordHash =>
      refine keeps_bind (still_readStore _ _) fun store => keeps_bind keeps_get fun m => ?_
      cases m.stores.get? username with
      | none => exact keeps_bind (still_putStore _ _) fun _ => keeps_pure _
      | some _ => exact keeps_pure _

theorem still_getStore (username : String) : Keeps (Still m₀) (getStore username) := by
  refine keeps_bind keeps_get fun m => ?_
  cases m.stores.get? username with
  | none => exact keeps_ite (still_loadUserFromDb _) (keeps_pure _)
  | some _ => exact keeps_pure _

theorem still_lookup (store : Store) (username key : String) :
    Keeps (Still m₀) (lookup store username key) := by
  refine keeps_bind (still_putStore _ _) fun _ => ?_
  cases (store.cache.get key).1 with
  | some _ => exact keeps_pure _
  | none =>
      refine keeps_bind keeps_get fun m => keeps_ite ?_ (keeps_pure _)
      refine keeps_bind (still_dbRead _) fun row => ?_
      cases row with
      | none => exact keeps_pure _
      | some row =>
          exact keeps_bind (still_cacheSet _ _ _) fun _ =>
            keeps_bind (still_putStore _ _) fun _ => keeps_pure _

theorem still_applySignup (username passwordHash : String) :
    Keeps (Still m₀) (applySignup username passwordHash) := by
  refine keeps_bind (still_getStore _) fun store => ?_
  cases store with
  | some _ => exact keeps_pure _
  | none =>
      have hw : Keeps (Still m₀) (dbCall fun db =>
          (db.saveUser username passwordHash).map ((), ·)) := by
        refine still_dbCall fun db p h => ?_
        unfold Database.saveUser at h
        split at h
        · cases h
        · cases h
          rfl
      have hnew : Keeps (Still m₀) (newStore username passwordHash) := still_newStore _ _
      have hn := keeps_bind hnew fun store =>
        keeps_bind (still_putStore username store) fun _ => keeps_pure true
      exact keeps_bind keeps_get fun m =>
        keeps_ite (keeps_bind hw fun _ => hn) hn

theorem sessions_saveEntry (username key value : String) (expireAt : Option Int) (db : Database) :
    (db.saveEntry username key value expireAt).sessions = db.sessions := by
  unfold Database.saveEntry
  split <;> rfl

theorem sessions_deleteEntry (username key : String) (db : Database) :
    (db.deleteEntry username key).2.sessions = db.sessions := by
  unfold Database.deleteEntry
  dsimp only
  split <;> rfl

theorem sessions_setExpiry (username key : String) (expireAt : Option Int) (db : Database) :
    (db.setExpiry username key expireAt).2.sessions = db.sessions := by
  unfold Database.setExpiry
  split <;> rfl

theorem still_applySet (username key value : String) (expireAt : Option Int) :
    Keeps (Still m₀) (applySet username key value expireAt) := by
  refine keeps_bind (still_getStore _) fun store => ?_
  cases store with
  | none => exact keeps_pure _
  | some store =>
      have hset : Keeps (Still m₀) (store.cacheSet key value) := still_cacheSet _ _ _
      have hn := keeps_bind hset fun store =>
        keeps_bind (still_putStore username (store.setExpiry key expireAt))
          fun _ => keeps_pure true
      exact keeps_bind keeps_get fun m =>
        keeps_ite (keeps_bind (still_dbWrite fun db => sessions_saveEntry _ _ _ _ db) fun _ => hn) hn

theorem still_applyDelete (username key : String) (atMs : Option Int) :
    Keeps (Still m₀) (applyDelete username key atMs) := by
  refine keeps_bind (still_getStore _) fun store => ?_
  cases store with
  | none => exact keeps_pure _
  | some store =>
      refine keeps_bind (still_lookup _ _ _) fun p => keeps_bind keeps_get fun m => ?_
      refine keeps_ite (keeps_bind (still_dbCall fun db q h => ?_) fun _ => ?_) ?_
      · cases h
        exact sessions_deleteEntry _ _ _
      · exact keeps_bind (still_putStore _ _) fun _ => keeps_pure _
      · exact keeps_bind (still_putStore _ _) fun _ => keeps_pure _

theorem still_applyExpiry (username key : String) (expireAt : Option Int) (atMs : Int) :
    Keeps (Still m₀) (applyExpiry username key expireAt atMs) := by
  refine keeps_bind (still_getStore _) fun store => ?_
  cases store with
  | none => exact keeps_pure _
  | some store =>
      refine keeps_bind (still_lookup _ _ _) fun p => ?_
      obtain ⟨item, store⟩ := p
      cases item with
      | none => exact keeps_pure _
      | some item =>
          refine keeps_ite (keeps_pure _) (keeps_ite (keeps_pure _) ?_)
          refine keeps_bind keeps_get fun m => ?_
          refine keeps_ite (keeps_bind (still_dbCall fun db q h => ?_) fun _ => ?_) ?_
          · cases h
            exact sessions_setExpiry _ _ _ _
          · exact keeps_bind (still_putStore _ _) fun _ => keeps_pure _
          · exact keeps_bind (still_putStore _ _) fun _ => keeps_pure _

theorem still_sweepStores (atMs : Int) : Keeps (Still m₀) (sweepStores atMs) :=
  fun _ hm => ⟨hm.1, hm.2, hm.3, hm.4, hm.5⟩

theorem still_applySweep (atMs : Int) : Keeps (Still m₀) (applySweep atMs) := by
  refine keeps_bind keeps_get fun m => ?_
  refine keeps_ite (keeps_bind (still_dbCall fun db q h => ?_) fun removed => ?_) ?_
  · cases h
    rfl
  · exact keeps_bind (still_sweepStores _) fun _ => keeps_pure _
  · exact keeps_bind (still_sweepStores _) fun _ => keeps_pure _

theorem still_run (username : String) (verb : Verb) : Keeps (Still m₀) (verb.run username) := by
  cases verb with
  | signup => exact keeps_bind (still_applySignup _ _) fun _ => keeps_pure _
  | set => exact keeps_bind (still_applySet _ _ _ _) fun _ => keeps_pure _
  | delete => exact keeps_bind (still_applyDelete _ _ _) fun _ => keeps_pure _
  | expiry => exact keeps_bind (still_applyExpiry _ _ _ _) fun _ => keeps_pure _
  | sweep => exact keeps_bind (still_applySweep _) fun _ => keeps_pure _
  | unknown => exact keeps_pure _

/-- A command leaves the session table alone. -/
theorem still_applyCommand (entry : LogEntry) : Keeps (Still m₀) (applyCommand entry) := by
  unfold applyCommand
  cases entry.verb with
  | error e => exact keeps_throw _
  | ok verb => exact still_run _ _

end Still

/-! ## What `apply` does to the session table -/

/-- The request an entry carries, if it carries one. -/
def LogEntry.request (entry : LogEntry) : Option RequestId :=
  if entry.requestId = "" then none else (parseRequestId entry.requestId).toOption

/-- The table with a new answer; the oldest session may have to go. -/
def Sessions.record (sessions : Sessions) (id : RequestId) (result : Result) (index : Nat) :
    Sessions :=
  let sessions : Sessions := sessions.set id.clientId ⟨id.seq, result, index⟩
  sessions.without sessions.toEvict

/-- A table of few clients is small. -/
theorem Sessions.size_le_card (sessions : Sessions) {clients : Finset String}
    (h : ∀ c s, sessions.get? c = some s → c ∈ clients) : sessions.size ≤ clients.card := by
  have hsub : sessions.keys.toFinset ⊆ clients := by
    intro c hmem
    obtain ⟨s, hs⟩ := Dict.mem_keys.mp (List.mem_toFinset.mp hmem)
    exact h c s hs
  have hcard := Finset.card_le_card hsub
  rwa [List.toFinset_card_of_nodup (l := sessions.keys) sessions.nodup, Dict.keys_length] at hcard

/-- While there is room nobody has to go. -/
theorem Sessions.record_of_size {sessions : Sessions} {id : RequestId} {result : Result}
    {index : Nat}
    (h : Dict.size (sessions.set id.clientId ⟨id.seq, result, index⟩) ≤ maxSessions) :
    sessions.record id result index = sessions.set id.clientId ⟨id.seq, result, index⟩ := by
  have hev : Sessions.toEvict (sessions.set id.clientId ⟨id.seq, result, index⟩) = none :=
    if_neg (by omega)
  unfold Sessions.record
  simp only [hev]
  rfl

/-! ## Applying an entry, given what its command does -/

/-- Two outcomes that raise the same or return related values. -/
def SameOutcome {α β : Type} (R : α → β → Prop) : Except SmError α → Except SmError β → Prop
  | .ok a, .ok b => R a b
  | .error e, .error e' => e = e'
  | _, _ => False

theorem SameOutcome.mono {α β : Type} {R R' : α → β → Prop} {x : Except SmError α}
    {y : Except SmError β} (h : SameOutcome R x y) (hR : ∀ a b, R a b → R' a b) :
    SameOutcome R' x y := by
  cases x <;> cases y
  · exact h
  · exact h.elim
  · exact h.elim
  · exact hR _ _ h

theorem SameOutcome.map {α β γ δ : Type} {R : α → β → Prop} {R' : γ → δ → Prop}
    {x : Except SmError α} {y : Except SmError β} (h : SameOutcome R x y) {f : α → γ} {g : β → δ}
    (hfg : ∀ a b, R a b → R' (f a) (g b)) : SameOutcome R' (x.map f) (y.map g) := by
  cases x <;> cases y
  · exact h
  · exact h.elim
  · exact h.elim
  · exact hfg _ _ h

/-- `apply` over any state, for a command that is a function of it: the
result, the state and the session table. -/
def applyWith {σ : Type} (command : σ → Except SmError (Result × σ)) (entry : LogEntry) (s : σ)
    (sessions : Sessions) : Except SmError (Result × σ × Sessions) :=
  if entry.requestId = "" then (command s).map fun p => (p.1, p.2, sessions)
  else match parseRequestId entry.requestId with
    | .error e => .error e
    | .ok id => match sessions.answerTo id with
      | some a => .ok (a, s, sessions)
      | none => (command s).map fun p => (p.1, p.2, sessions.record id p.1 entry.index)

/-- Whether an apply reaches the entry's command. -/
def Reaches (sessions : Sessions) (entry : LogEntry) : Prop :=
  entry.requestId = "" ∨ ∃ id, entry.request = some id ∧ sessions.answerTo id = none

/-- Commands with related outcomes give applies with related outcomes. -/
theorem applyWith_rel {σ τ : Type} {R : σ → τ → Prop} {f : σ → Except SmError (Result × σ)}
    {g : τ → Except SmError (Result × τ)} {entry : LogEntry} {s : σ} {t : τ} {sessions : Sessions}
    (hst : R s t)
    (h : Reaches sessions entry → SameOutcome (fun p q => p.1 = q.1 ∧ R p.2 q.2) (f s) (g t)) :
    SameOutcome (fun p q => p.1 = q.1 ∧ R p.2.1 q.2.1 ∧ p.2.2 = q.2.2)
      (applyWith f entry s sessions) (applyWith g entry t sessions) := by
  unfold applyWith
  by_cases he : entry.requestId = ""
  · rw [if_pos he, if_pos he]
    exact (h (Or.inl he)).map fun p q hpq => ⟨hpq.1, hpq.2, rfl⟩
  · rw [if_neg he, if_neg he]
    cases hp : parseRequestId entry.requestId with
    | error e => rfl
    | ok id =>
        dsimp only
        cases ha : sessions.answerTo id with
        | some a => exact ⟨rfl, hst, rfl⟩
        | none =>
            have hid : entry.request = some id := by
              simp [LogEntry.request, he, hp, Except.toOption]
            exact (h (Or.inr ⟨id, hid, ha⟩)).map fun p q hpq =>
              ⟨hpq.1, hpq.2, congrArg (sessions.record id · entry.index) hpq.1⟩

/-- What a command keeps, the apply keeps. -/
theorem applyWith_keeps {σ : Type} {P : σ → Prop} {f : σ → Except SmError (Result × σ)}
    {entry : LogEntry} {s s' : σ} {sessions sessions' : Sessions} {r : Result} (hs : P s)
    (hf : ∀ p, f s = .ok p → P p.2)
    (h : applyWith f entry s sessions = .ok (r, s', sessions')) : P s' := by
  have hmap : ∀ g : Result × σ → Sessions,
      ((f s).map fun p => (p.1, p.2, g p)) = .ok (r, s', sessions') → P s' := by
    intro g hg
    cases hp : f s with
    | error e =>
        rw [hp] at hg
        cases hg
    | ok p =>
        rw [hp] at hg
        cases hg
        exact hf p hp
  unfold applyWith at h
  split at h
  · exact hmap _ h
  · split at h
    · cases h
    · split at h
      · cases h
        exact hs
      · exact hmap _ h

/-! ## `apply` and the session table -/

theorem wp_sessionCall {α : Type} {f : Database → α × Database} {m : CacheStateMachine}
    {Q : α → CacheStateMachine → Prop} {R : SmError → CacheStateMachine → Prop} :
    wp (sessionCall f) Q R m ↔
      if m.sessionFaults.headD false then
        R .database { m with sessionFaults := m.sessionFaults.tail }
      else Q (f m.db).1 { m with db := (f m.db).2, sessionFaults := m.sessionFaults.tail } := by
  unfold sessionCall
  simp only [wp_bind, wp_get, wp_set, wp_ite, wp_throw]
  split <;> rfl

theorem sessions_sessionCall {f : Database → Unit × Database} {S : Sessions} :
    Keeps (fun m => m.sessions = S) (sessionCall f) := by
  intro m hm
  rw [wp_sessionCall]
  split <;> exact hm

theorem sessions_recordSession {requestId : String} {id : RequestId} {result : Result}
    {index : Nat} {m : CacheStateMachine} (hid : parseRequestId requestId = .ok id) :
    wp (recordSession requestId result index)
      (fun _ m' => m'.sessions = m.sessions.record id result index)
      (fun _ m' => m'.sessions = m.sessions.record id result index) m := by
  unfold recordSession
  rw [hid]
  simp only [wp_bind, wp_get, wp_set, wp_ite]
  split
  · refine wp_mono (sessions_sessionCall _ ?_) ?_ (fun _ _ h => h)
    · rfl
    · intro _ m' hm'
      split
      · rw [wp_ite]
        split
        · exact sessions_sessionCall _ hm'
        · exact hm'
      · exact hm'
  · rfl

/-- An answer the table has is given without any effect. -/
theorem apply_answered {entry : LogEntry} {id : RequestId} {m : CacheStateMachine} {a : Result}
    (hid : entry.request = some id) (ha : m.sessions.answerTo id = some a) :
    (apply entry).run m = .ok a m := by
  unfold LogEntry.request at hid
  split at hid
  · cases hid
  · next hne =>
      cases hp : parseRequestId entry.requestId with
      | error e => simp [hp, Except.toOption] at hid
      | ok id' =>
          obtain rfl : id' = id := by simpa [hp, Except.toOption] using hid
          refine run_eq_ok ?_
          unfold apply checkSession
          rw [if_neg hne, hp]
          simp only [wp_bind, wp_get, wp_pure, ha, and_self]

/-- Otherwise the command runs and its answer is recorded. -/
theorem sessions_apply (entry : LogEntry) (m : CacheStateMachine) :
    wp (apply entry)
      (fun r m' => match entry.request with
        | none => m'.sessions = m.sessions
        | some id => match m.sessions.answerTo id with
          | some a => r = a ∧ m' = m
          | none => m'.sessions = m.sessions.record id r entry.index)
      (fun _ _ => True) m := by
  have hc := still_applyCommand entry m (Still.refl m)
  unfold apply LogEntry.request
  split
  · exact wp_mono hc (fun _ _ h => h.sessions) fun _ _ _ => trivial
  · rw [wp_bind]
    unfold checkSession
    cases hp : parseRequestId entry.requestId with
    | error e => trivial
    | ok id =>
        simp only [wp_bind, wp_get, wp_pure, Except.toOption]
        cases ha : m.sessions.answerTo id with
        | some a => exact ⟨rfl, rfl⟩
        | none =>
            rw [wp_bind]
            refine wp_mono hc (fun r m' h => ?_) fun _ _ _ => trivial
            rw [wp_bind]
            refine wp_mono (sessions_recordSession hp) (fun _ m'' h' => ?_) fun _ _ _ => trivial
            exact h.sessions ▸ h'

/-! ## The table remembers the history -/

/-- The entries applied so far with what they answered. -/
abbrev History := List (LogEntry × Result)

/-- The clients whose requests are in a log. -/
def clientIds (log : List LogEntry) : Finset String :=
  (log.filterMap fun e => e.request.map (·.clientId)).toFinset

theorem mem_clientIds {log : List LogEntry} {c : String} :
    c ∈ clientIds log ↔ ∃ e ∈ log, ∃ id, e.request = some id ∧ id.clientId = c := by
  simp [clientIds]

/-- What the first entry with a request answered. -/
def History.answer (hist : History) (id : RequestId) : Option Result :=
  (hist.find? fun p => p.1.request = some id).map Prod.snd

/-- A request of the same client with a larger number is in the history. -/
def History.Overtaken (hist : History) (id : RequestId) : Prop :=
  ∃ p ∈ hist, ∃ id', p.1.request = some id' ∧ id'.clientId = id.clientId ∧ id.seq < id'.seq

/-- The session table holds, of each client in the history, the request
with the largest number and its first answer. -/
structure Remembers (hist : History) (sessions : Sessions) : Prop where
  newest : ∀ c s, sessions.get? c = some s →
    (∀ p ∈ hist, ∀ id, p.1.request = some id → id.clientId = c → id.seq ≤ s.seq) ∧
    hist.answer ⟨c, s.seq⟩ = some s.result
  missing : ∀ c, sessions.get? c = none →
    ∀ p ∈ hist, ∀ id, p.1.request = some id → id.clientId ≠ c
  /-- an overtaken request was ignored -/
  ignored : ∀ h₁ p h₂ id, hist = h₁ ++ p :: h₂ → p.1.request = some id →
    History.Overtaken h₁ id → p.2 = .none

theorem History.answer_snoc {hist : History} {p : LogEntry × Result} {id : RequestId} :
    History.answer (hist ++ [p]) id
      = (hist.answer id).or (if p.1.request = some id then some p.2 else none) := by
  unfold History.answer
  rw [List.find?_append]
  cases hist.find? fun p => p.1.request = some id with
  | some q => simp
  | none =>
      by_cases h : p.1.request = some id <;> simp [h]

theorem History.mem_of_answer {hist : History} {id : RequestId} {a : Result}
    (h : hist.answer id = some a) : ∃ p ∈ hist, p.1.request = some id ∧ p.2 = a := by
  unfold History.answer at h
  obtain ⟨p, hp, ha⟩ := Option.map_eq_some_iff.mp h
  exact ⟨p, List.mem_of_find?_eq_some hp, by simpa using List.find?_some hp, ha⟩

section Remembers

variable {hist : History} {sessions : Sessions}

theorem remembers_empty : Remembers [] Dict.empty where
  newest c s h := by simp at h
  missing c _ p hp := by simp at hp
  ignored h₁ p h₂ id h := by simp at h

/-- The clients in the table are clients of the history. -/
theorem Remembers.size_le (r : Remembers hist sessions) {clients : Finset String}
    (hc : ∀ p ∈ hist, ∀ id, p.1.request = some id → id.clientId ∈ clients) :
    sessions.size ≤ clients.card := by
  refine sessions.size_le_card ?_
  intro c s hs
  obtain ⟨p, hp, hid, -⟩ := History.mem_of_answer (r.newest c s hs).2
  exact hc p hp _ hid

/-- The table leaves a request to be run exactly if it is the newest of its
client. -/
theorem Remembers.answerTo_eq_none (r : Remembers hist sessions) (id : RequestId) :
    sessions.answerTo id = none ↔
      ∀ p ∈ hist, ∀ id', p.1.request = some id' → id'.clientId = id.clientId → id'.seq < id.seq := by
  unfold Sessions.answerTo
  cases hs : sessions.get? id.clientId with
  | none =>
      refine iff_of_true rfl fun p hp id' hid' hc => ?_
      exact absurd hc (r.missing _ hs p hp id' hid')
  | some s =>
      obtain ⟨hmax, hans⟩ := r.newest _ s hs
      obtain ⟨p, hp, hid', -⟩ := History.mem_of_answer hans
      constructor
      · intro h q hq id' hid'' hc
        have hle := hmax q hq id' hid'' hc
        by_cases hlt : s.seq < id.seq
        · omega
        · simp only [hlt, if_false] at h
          split at h <;> cases h
      · intro h
        exact if_pos (h p hp _ hid' rfl)

/-- A request that was overtaken is answered with nothing. -/
theorem Remembers.answerTo_overtaken (r : Remembers hist sessions) {id : RequestId}
    (h : hist.Overtaken id) : sessions.answerTo id = some .none := by
  obtain ⟨p, hp, id', hid', hc, hlt⟩ := h
  unfold Sessions.answerTo
  cases hs : sessions.get? id.clientId with
  | none => exact absurd hc (r.missing _ hs p hp id' hid')
  | some s =>
      have hle := (r.newest _ s hs).1 p hp id' hid' hc
      have h₁ : ¬ s.seq < id.seq := by omega
      have h₂ : ¬ id.seq = s.seq := by omega
      simp only [h₁, h₂, if_false]

/-- A request that is still its client's newest is answered as at first. -/
theorem Remembers.answerTo_newest (r : Remembers hist sessions) {id : RequestId} {a : Result}
    (ha : hist.answer id = some a) (h : ¬ hist.Overtaken id) : sessions.answerTo id = some a := by
  obtain ⟨p, hp, hid, -⟩ := History.mem_of_answer ha
  unfold Sessions.answerTo
  cases hs : sessions.get? id.clientId with
  | none => exact absurd rfl (r.missing _ hs p hp id hid)
  | some s =>
      obtain ⟨hmax, hans⟩ := r.newest _ s hs
      obtain ⟨q, hq, hid', -⟩ := History.mem_of_answer hans
      have h₁ := hmax p hp id hid rfl
      have h₂ : ¬ id.seq < s.seq := fun hlt => h ⟨q, hq, _, hid', rfl, hlt⟩
      have heq : id.seq = s.seq := by omega
      have h₃ : ¬ s.seq < id.seq := by omega
      rw [← heq] at hans
      have : some s.result = some a := hans.symm.trans ha
      simpa [h₃, heq] using this

/-- One more entry in the history. -/
theorem Remembers.ignored_snoc (r : Remembers hist sessions) {p : LogEntry × Result}
    (h : ∀ id, p.1.request = some id → hist.Overtaken id → p.2 = .none) :
    ∀ h₁ q h₂ id, hist ++ [p] = h₁ ++ q :: h₂ → q.1.request = some id →
      History.Overtaken h₁ id → q.2 = .none := by
  intro h₁ q h₂ id heq hid ho
  rcases List.eq_nil_or_concat h₂ with rfl | ⟨h₃, q', rfl⟩
  · obtain ⟨rfl, hq⟩ := List.append_inj' heq rfl
    obtain rfl : p = q := by simpa using hq
    exact h id hid ho
  · have heq' : hist ++ [p] = (h₁ ++ q :: h₃) ++ [q'] := by simpa using heq
    obtain ⟨rfl, -⟩ := List.append_inj' heq' rfl
    exact r.ignored h₁ q h₃ id rfl hid ho

/-- An entry that changes nothing in the table: it carries no request, or
one that the table answers. -/
theorem Remembers.snoc_same (r : Remembers hist sessions) {p : LogEntry × Result}
    (h : ∀ id, p.1.request = some id → sessions.answerTo id = some p.2) :
    Remembers (hist ++ [p]) sessions where
  newest c s hs := by
    obtain ⟨hmax, hans⟩ := r.newest c s hs
    refine ⟨fun q hq id hid hc => ?_, by rw [History.answer_snoc, hans]; rfl⟩
    rcases List.mem_append.mp hq with hq | hq
    · exact hmax q hq id hid hc
    · obtain rfl : q = p := by simpa using hq
      have ha := h id hid
      unfold Sessions.answerTo at ha
      rw [hc, hs] at ha
      by_cases hlt : s.seq < id.seq
      · simp [hlt] at ha
      · omega
  missing c hc q hq id hid := by
    rcases List.mem_append.mp hq with hq | hq
    · exact r.missing c hc q hq id hid
    · obtain rfl : q = p := by simpa using hq
      rintro rfl
      have ha := h id hid
      unfold Sessions.answerTo at ha
      simp [hc] at ha
  ignored := by
    refine r.ignored_snoc fun id hid ho => ?_
    have ha := h id hid
    rw [r.answerTo_overtaken ho] at ha
    exact (Option.some.inj ha).symm

/-- A request that had to run, recorded while there is room. -/
theorem Remembers.snoc_run (r : Remembers hist sessions) {p : LogEntry × Result} {id : RequestId}
    {index : Nat} (hid : p.1.request = some id) (hrun : sessions.answerTo id = none)
    (hroom : sessions.size < maxSessions) :
    Remembers (hist ++ [p]) (sessions.record id p.2 index) := by
  have hnew := (r.answerTo_eq_none id).mp hrun
  have hsize := Dict.size_set_le sessions id.clientId ⟨id.seq, p.2, index⟩
  have hkeep : sessions.record id p.2 index = sessions.set id.clientId ⟨id.seq, p.2, index⟩ :=
    Sessions.record_of_size (by omega)
  have hfirst : hist.answer id = none := by
    cases ha : hist.answer id with
    | none => rfl
    | some a =>
        obtain ⟨q, hq, hid', -⟩ := History.mem_of_answer ha
        exact absurd (hnew q hq id hid' rfl) (lt_irrefl _)
  rw [hkeep]
  constructor
  · intro c s hs
    rw [Dict.get?_set] at hs
    split at hs
    · next hc =>
        obtain rfl := Option.some.inj hs
        subst hc
        refine ⟨fun q hq id' hid' hc => ?_, ?_⟩
        · rcases List.mem_append.mp hq with hq | hq
          · exact le_of_lt (hnew q hq id' hid' hc)
          · obtain rfl : q = p := by simpa using hq
            rw [hid] at hid'
            exact le_of_eq (by rw [Option.some.inj hid'])
        · rw [History.answer_snoc, hfirst, hid]
          simp
    · next hc =>
        obtain ⟨hmax, hans⟩ := r.newest c s hs
        refine ⟨fun q hq id' hid' hc' => ?_, by rw [History.answer_snoc, hans]; rfl⟩
        rcases List.mem_append.mp hq with hq | hq
        · exact hmax q hq id' hid' hc'
        · obtain rfl : q = p := by simpa using hq
          rw [hid] at hid'
          exact absurd (hc'.symm.trans (by rw [Option.some.inj hid'])) hc
  · intro c hc q hq id' hid'
    rw [Dict.get?_set] at hc
    split at hc
    · cases hc
    · next hne =>
        rcases List.mem_append.mp hq with hq | hq
        · exact r.missing c hc q hq id' hid'
        · obtain rfl : q = p := by simpa using hq
          rw [hid] at hid'
          rw [← Option.some.inj hid']
          exact fun h => hne h.symm
  · refine r.ignored_snoc fun id' hid' ho => ?_
    obtain ⟨q, hq, id'', hid'', hc, hlt⟩ := ho
    rw [hid] at hid'
    obtain rfl := Option.some.inj hid'
    have := hnew q hq id'' hid'' hc
    omega

end Remembers

/-! ## Runs -/

theorem wp_applyLog_snoc {log : List LogEntry} {entry : LogEntry} {m : CacheStateMachine}
    {Q : List Result → CacheStateMachine → Prop} {R : SmError → CacheStateMachine → Prop} :
    wp (applyLog (log ++ [entry])) Q R m ↔
      wp (applyLog log) (fun rs => wp (apply entry) (fun r => Q (rs ++ [r])) R) R m := by
  induction log generalizing m Q with
  | nil =>
      rw [List.nil_append, applyLog, applyLog, wp_bind, wp_pure]
      exact wp_congr fun r m' => Iff.rfl
  | cons e log ih =>
      rw [List.cons_append, applyLog, applyLog, wp_bind, wp_bind]
      refine wp_congr fun r m' => ?_
      rw [wp_bind, wp_bind, ih]
      exact wp_congr fun rs m'' => Iff.rfl

/-- After any log with fewer clients than the table can hold, the table
remembers the history of the log. -/
theorem remembers_applyLog {m₀ : CacheStateMachine} (hm₀ : m₀.sessions = Dict.empty)
    {clients : Finset String} (hfew : clients.card < maxSessions) (log : List LogEntry)
    (hlog : clientIds log ⊆ clients) :
    wp (applyLog log)
      (fun rs m => rs.length = log.length ∧ Remembers (log.zip rs) m.sessions)
      (fun _ _ => True) m₀ := by
  induction log using List.reverseRecOn with
  | nil => exact ⟨rfl, hm₀ ▸ remembers_empty⟩
  | append_singleton log e ih =>
      have hsub : clientIds log ⊆ clients := by
        intro c hc
        obtain ⟨e', he', h⟩ := mem_clientIds.mp hc
        exact hlog (mem_clientIds.mpr ⟨e', List.mem_append_left _ he', h⟩)
      rw [wp_applyLog_snoc]
      refine wp_mono (ih hsub) (fun rs m h => ?_) fun _ _ _ => trivial
      obtain ⟨hlen, r⟩ := h
      refine wp_mono (sessions_apply e m) (fun a m' h => ?_) fun _ _ _ => trivial
      have hzip : (log ++ [e]).zip (rs ++ [a]) = log.zip rs ++ [(e, a)] := by
        rw [List.zip_append hlen.symm]
        rfl
      refine ⟨by simp [hlen], ?_⟩
      rw [hzip]
      cases hid : e.request with
      | none =>
          rw [hid] at h
          exact h ▸ r.snoc_same fun id hid' => absurd (hid.symm.trans hid') (by simp)
      | some id =>
          rw [hid] at h
          cases ha : m.sessions.answerTo id with
          | some b =>
              simp only [ha] at h
              obtain ⟨rfl, rfl⟩ := h
              refine r.snoc_same fun id' hid' => ?_
              rw [hid] at hid'
              exact Option.some.inj hid' ▸ ha
          | none =>
              simp only [ha] at h
              have hsize : m.sessions.size ≤ clients.card := r.size_le fun p hp id' hid' =>
                hsub (mem_clientIds.mpr ⟨p.1, (List.of_mem_zip hp).1, id', hid', rfl⟩)
              rw [h]
              exact r.snoc_run hid ha (by omega)

/-- `apply` runs the entry's command, rather than answer from the table. -/
def Executes (m : CacheStateMachine) (entry : LogEntry) : Prop :=
  ∀ id, entry.request = some id → m.sessions.answerTo id = none

theorem apply_executes {m : CacheStateMachine} {entry : LogEntry} {id : RequestId}
    (hid : entry.request = some id) (h : Executes m entry) :
    (apply entry).run m = (do
      let result ← applyCommand entry
      recordSession entry.requestId result entry.index
      pure result : M Result).run m := by
  have ha := h id hid
  unfold LogEntry.request at hid
  split at hid
  · cases hid
  · next hne =>
      cases hp : parseRequestId entry.requestId with
      | error e => simp [hp, Except.toOption] at hid
      | ok id' =>
          obtain rfl : id' = id := by simpa [hp, Except.toOption] using hid
          unfold apply checkSession
          rw [if_neg hne, hp]
          simp [ha]

/-- The first entry with a request, and what it answered. -/
theorem History.answer_of_first {before : List LogEntry} (between : List LogEntry) {first : LogEntry}
    {rs : List Result} {a : Result} {id : RequestId} (hid : first.request = some id)
    (hfirst : ∀ e ∈ before, e.request ≠ some id) (ha : rs[before.length]? = some a) :
    History.answer ((before ++ first :: between).zip rs) id = some a := by
  induction before generalizing rs with
  | nil =>
      cases rs with
      | nil => simp at ha
      | cons r rs =>
          obtain rfl : r = a := by simpa using ha
          simp [History.answer, hid]
  | cons e before ih =>
      cases rs with
      | nil => simp at ha
      | cons r rs =>
          have he : e.request ≠ some id := hfirst e (by simp)
          have ha' : rs[before.length]? = some a := by simpa using ha
          have h := ih (fun e' he' => hfirst e' (by simp [he'])) ha'
          simpa [History.answer, he] using h

/-- Exactly-once writes: over a log whose clients all fit into the session
table, a request runs at its first occurrence, if none of the same client
with a larger number came before, and nowhere else; a later occurrence has
no effect, and until the client's next larger number it answers what the
first one answered. -/
theorem exactly_once_writes {m₀ : CacheStateMachine} (hm₀ : m₀.sessions = Dict.empty)
    {log : List LogEntry} (hfew : (clientIds log).card < maxSessions)
    {done rest : List LogEntry} {entry : LogEntry} (hlog : log = done ++ entry :: rest)
    {rs : List Result} {m : CacheStateMachine} (hrun : (applyLog done).run m₀ = .ok rs m)
    {id : RequestId} (hid : entry.request = some id) :
    (Executes m entry ↔
      (∀ e ∈ done, e.request ≠ some id) ∧
      ∀ e ∈ done, ∀ id', e.request = some id' → id'.clientId = id.clientId →
        ¬ id.seq < id'.seq) ∧
    (Executes m entry →
      (apply entry).run m = (do
        let result ← applyCommand entry
        recordSession entry.requestId result entry.index
        pure result : M Result).run m) ∧
    (¬ Executes m entry → ∃ a, (apply entry).run m = .ok a m) ∧
    (∀ before first between, done = before ++ first :: between → first.request = some id →
      (∀ e ∈ before, e.request ≠ some id) →
      (∀ e ∈ between, ∀ id', e.request = some id' → id'.clientId = id.clientId →
        ¬ id.seq < id'.seq) →
      ∃ a, rs[before.length]? = some a ∧ (apply entry).run m = .ok a m) := by
  have hsub : clientIds done ⊆ clientIds log := by
    intro c hc
    obtain ⟨e, he, h⟩ := mem_clientIds.mp hc
    exact mem_clientIds.mpr ⟨e, hlog ▸ List.mem_append_left _ he, h⟩
  obtain ⟨hlen, r⟩ : rs.length = done.length ∧ Remembers (done.zip rs) m.sessions := by
    have h := remembers_applyLog hm₀ hfew done hsub
    simpa only [wp, hrun] using h
  have hexec : Executes m entry ↔ m.sessions.answerTo id = none := by
    constructor
    · exact fun h => h id hid
    · intro h id' hid'
      rw [hid] at hid'
      exact Option.some.inj hid' ▸ h
  have hmem : ∀ e ∈ done, ∃ a, (e, a) ∈ done.zip rs := by
    intro e he
    obtain ⟨i, hi, rfl⟩ := List.mem_iff_getElem.mp he
    have hz : i < (done.zip rs).length := by simp [hlen, hi]
    exact ⟨rs[i], by simpa using List.getElem_mem hz⟩
  refine ⟨?_, apply_executes hid, ?_, ?_⟩
  · rw [hexec, r.answerTo_eq_none]
    constructor
    · intro h
      refine ⟨fun e he hid' => ?_, fun e he id' hid' hc => ?_⟩
      · obtain ⟨a, ha⟩ := hmem e he
        exact lt_irrefl _ (h _ ha id hid' rfl)
      · obtain ⟨a, ha⟩ := hmem e he
        exact not_lt_of_gt (h _ ha id' hid' hc)
    · intro h p hp id' hid' hc
      have he := (List.of_mem_zip (a := p.1) (b := p.2) hp).1
      have hne : id'.seq ≠ id.seq := by
        intro hseq
        obtain ⟨c, q⟩ := id
        obtain ⟨c', q'⟩ := id'
        simp only at hc hseq
        subst hc hseq
        exact h.1 p.1 he hid'
      have := h.2 p.1 he id' hid' hc
      omega
  · intro h
    rw [hexec] at h
    obtain ⟨a, ha⟩ := Option.ne_none_iff_exists'.mp h
    exact ⟨a, apply_answered hid ha⟩
  · intro before first between hdone hidf hfirst hlarger
    have hlt : before.length < rs.length := by
      rw [hlen, hdone]
      simp
    have ha := List.getElem?_eq_getElem hlt
    by_cases ho : History.Overtaken (done.zip rs) id
    · -- the larger number came before the first occurrence: both were ignored
      refine ⟨.none, ?_, apply_answered hid (r.answerTo_overtaken ho)⟩
      obtain ⟨p, hp, id', hid', hc, hlt'⟩ := ho
      have hrs : rs = rs.take before.length ++
          rs[before.length] :: rs.drop (before.length + 1) := by
        rw [List.getElem_cons_drop, List.take_append_drop]
      have hsplit : done.zip rs = before.zip (rs.take before.length) ++
          (first, rs[before.length]) :: between.zip (rs.drop (before.length + 1)) := by
        have hl : before.length = (rs.take before.length).length := by
          rw [List.length_take, Nat.min_eq_left (Nat.le_of_lt hlt)]
        conv_lhs => rw [hdone, hrs]
        rw [List.zip_append hl, List.zip_cons_cons]
      have hp' : p ∈ before.zip (rs.take before.length) := by
        rw [hsplit, List.mem_append, List.mem_cons] at hp
        rcases hp with hp | rfl | hp
        · exact hp
        · rw [hidf] at hid'
          obtain rfl := Option.some.inj hid'
          exact absurd hlt' (lt_irrefl _)
        · exact absurd hlt' (hlarger p.1 (List.of_mem_zip (b := p.2) hp).1 id' hid' hc)
      have hnone := r.ignored _ _ _ id hsplit hidf ⟨p, hp', id', hid', hc, hlt'⟩
      rw [ha]
      exact congrArg some hnone
    · refine ⟨rs[before.length], ha, ?_⟩
      have hans := History.answer_of_first between hidf hfirst ha
      rw [← hdone] at hans
      exact apply_answered hid (r.answerTo_newest hans ho)

/-- A machine, and a log it applied in which a deletion is followed by
somebody else's SET of the same key. -/
def ramMachine : CacheStateMachine := { useDb := false, capacity := 2 }

def deletedAndSet : List LogEntry :=
  [⟨1, 1, .write "SIGNUP h", "zoe", ""⟩, ⟨1, 2, .write "SET k v", "zoe", ""⟩,
   ⟨1, 3, .write "DELETE k 5", "zoe", "c1:1"⟩, ⟨1, 4, .write "SET k again", "zoe", ""⟩]

/-- The retry of the deletion. -/
def retriedDelete : LogEntry := ⟨1, 5, .write "DELETE k 5", "zoe", "c1:1"⟩

theorem exactly_once_writes_retry :
    ∃ a, [Result.bool true, .bool true, .bool true, .bool true][2]? = some a ∧
      (apply retriedDelete).run (after (applyLog deletedAndSet) ramMachine)
        = .ok a (after (applyLog deletedAndSet) ramMachine) := by
  have hrun : (applyLog deletedAndSet).run ramMachine
      = .ok [.bool true, .bool true, .bool true, .bool true]
          (after (applyLog deletedAndSet) ramMachine) :=
    run_eq_of_value? (by decide +kernel)
  have hfew : (clientIds (deletedAndSet ++ [retriedDelete])).card < maxSessions := by
    decide +kernel
  have hid : retriedDelete.request = some ⟨"c1", 1⟩ := by decide +kernel
  have hfirst : ∀ e ∈ deletedAndSet.take 2, e.request ≠ some ⟨"c1", 1⟩ := by decide +kernel
  have hlater : ∀ e ∈ deletedAndSet.drop 3, e.request = none := by decide +kernel
  refine (exactly_once_writes rfl hfew rfl hrun hid).2.2.2 (deletedAndSet.take 2)
    ⟨1, 3, .write "DELETE k 5", "zoe", "c1:1"⟩ (deletedAndSet.drop 3) rfl (by decide +kernel)
    hfirst ?_
  intro e he id' hid'
  rw [hlater e he] at hid'
  cases hid'

end KvCache
