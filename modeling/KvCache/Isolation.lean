import KvCache.SnapshotRuns

/-!
# One user and the writes of the others

A log is compared with what is left of it without the other users' writes
(`withoutOthers`). Stores and tables are divided by user, so a command
leaves a user's part as it was or changes it by that part alone
(`Isolates`). The session table is not: it is keyed by a client id that any
connection may choose, and has one limit for all clients. So a user's
answers are their own as long as the clients are (`Apart`).
-/

namespace KvCache

open StateWp

/-! ## Kinds of entries -/

/-- The first word of a command. -/
def firstWord (text : String) : String := String.ofList (PyText.partition ' ' text.toList).1

def LogEntry.word (entry : LogEntry) : String :=
  match entry.command with
  | .write text => firstWord text
  | _ => ""

/-- The commands on the data of one user. -/
def dataWords : List String := ["SIGNUP", "SET", "SETEX", "DELETE", "EXPIREAT", "PERSIST"]

def LogEntry.isSweep (entry : LogEntry) : Bool := entry.word == "SWEEP"

/-- Is this a write to another user's data? -/
def LogEntry.isOthers (username : String) (entry : LogEntry) : Bool :=
  entry.username != username && dataWords.contains entry.word

/-- The log without the other users' writes. -/
def withoutOthers (username : String) (log : List LogEntry) : List LogEntry :=
  log.filter fun e => !e.isOthers username

/-- Do two entries carry requests of one client? -/
def LogEntry.SharesClient (e e' : LogEntry) : Prop :=
  ∃ id id', e.request = some id ∧ e'.request = some id' ∧ id.clientId = id'.clientId

theorem of_bind_ok {α β : Type} {x : Except SmError α} {f : α → Except SmError β} {b : β}
    (h : x >>= f = .ok b) : ∃ a, f a = .ok b := by
  cases x with
  | error e => cases h
  | ok a => exact ⟨a, h⟩

/-- What the first word says of the verb. -/
theorem word_of_parseVerb {text : String} {verb : Verb} (h : parseVerb text = .ok verb) :
    verb = .unknown ∨ (∃ atMs, verb = .sweep atMs ∧ firstWord text = "SWEEP") ∨
      ((∀ atMs, verb ≠ .sweep atMs) ∧ firstWord text ∈ dataWords) := by
  unfold parseVerb at h
  unfold firstWord
  generalize PyText.partition ' ' text.toList = p at h ⊢
  obtain ⟨word, rest⟩ := p
  dsimp only at h ⊢
  have hdata {v : Verb} (hv : v = verb) (hs : ∀ atMs, v ≠ .sweep atMs)
      (hw : String.ofList word ∈ dataWords) :
      verb = .unknown ∨ (∃ atMs, verb = .sweep atMs ∧ String.ofList word = "SWEEP") ∨
        ((∀ atMs, verb ≠ .sweep atMs) ∧ String.ofList word ∈ dataWords) :=
    Or.inr (Or.inr ⟨hv ▸ hs, hw⟩)
  split at h
  · next hw => exact hdata (Except.ok.inj h) (by simp) (by simp [hw, dataWords])
  · next hw => exact hdata (Except.ok.inj h) (by simp) (by simp [hw, dataWords])
  · next hw =>
      split at h
      · obtain ⟨t, h⟩ := of_bind_ok h
        exact hdata (Except.ok.inj h) (by simp) (by simp [hw, dataWords])
      · cases h
  · next hw =>
      split at h
      · exact hdata (Except.ok.inj h) (by simp) (by simp [hw, dataWords])
      · obtain ⟨t, h⟩ := of_bind_ok h
        exact hdata (Except.ok.inj h) (by simp) (by simp [hw, dataWords])
  · next hw =>
      split at h
      · obtain ⟨t, h⟩ := of_bind_ok h
        obtain ⟨n, h⟩ := of_bind_ok h
        exact hdata (Except.ok.inj h) (by simp) (by simp [hw, dataWords])
      · cases h
  · next hw =>
      split at h
      · obtain ⟨n, h⟩ := of_bind_ok h
        exact hdata (Except.ok.inj h) (by simp) (by simp [hw, dataWords])
      · cases h
  · next hw =>
      obtain ⟨n, h⟩ := of_bind_ok h
      exact Or.inr (Or.inl ⟨n, (Except.ok.inj h).symm, hw⟩)
  · exact Or.inl (Except.ok.inj h).symm

/-- An entry that stays is a sweep, or the user's own, or has no effect. -/
theorem verb_of_stays {username : String} {entry : LogEntry} {verb : Verb}
    (hs : entry.isOthers username = false) (h : entry.verb = .ok verb) :
    verb = .unknown ∨ (∃ atMs, verb = .sweep atMs ∧ entry.isSweep = true) ∨
      ((∀ atMs, verb ≠ .sweep atMs) ∧ entry.username = username) := by
  unfold LogEntry.isOthers at hs
  unfold LogEntry.isSweep
  unfold LogEntry.verb at h
  unfold LogEntry.word at hs ⊢
  cases hc : entry.command with
  | write text =>
      rw [hc] at h hs
      rcases word_of_parseVerb h with hv | ⟨atMs, hv, hw⟩ | ⟨hv, hw⟩
      · exact Or.inl hv
      · exact Or.inr (Or.inl ⟨atMs, hv, by simp [hw]⟩)
      · exact Or.inr (Or.inr ⟨hv, by simpa [hw] using hs⟩)
  | noop =>
      rw [hc] at h
      exact Or.inl (Except.ok.inj h).symm
  | config members =>
      rw [hc] at h
      exact Or.inl (Except.ok.inj h).symm

/-- An entry that goes is no sweep. -/
theorem verb_of_goes {username : String} {entry : LogEntry} {verb : Verb}
    (hs : entry.isOthers username = true) (h : entry.verb = .ok verb) :
    entry.username ≠ username ∧ ∀ atMs, verb ≠ .sweep atMs := by
  unfold LogEntry.isOthers at hs
  unfold LogEntry.verb at h
  unfold LogEntry.word at hs
  have hu : entry.username ≠ username := by
    intro he
    simp [he] at hs
  refine ⟨hu, ?_⟩
  cases hc : entry.command with
  | write text =>
      rw [hc] at h hs
      rcases word_of_parseVerb h with rfl | ⟨atMs, -, hw⟩ | ⟨hv, -⟩
      · exact fun _ hv => by cases hv
      · simp [hw, dataWords] at hs
      · exact hv
  | noop =>
      rw [hc] at h
      cases h
      exact fun _ hv => by cases hv
  | config members =>
      rw [hc] at h
      cases h
      exact fun _ hv => by cases hv

/-! ## Commands -/

/-- A command does to one user's part, related by `V`, what that part alone
says: the entries that stay keep it related with the same results (a sweep
counts everybody's keys), and the others' leave it as it was. -/
structure Isolates {σ : Type} (username : String) (V : σ → σ → Prop)
    (command : LogEntry → σ → Except SmError (Result × σ)) : Prop where
  stays : ∀ e s s', e.isOthers username = false → V s s' →
    SameOutcome (fun p q => (e.isSweep = false → p.1 = q.1) ∧ V p.2 q.2) (command e s) (command e s')
  goes : ∀ e s s' p, e.isOthers username = true → V s s' → command e s = .ok p → V p.2 s'

/-- What the other users' writes do in RAM. -/
theorem ram_get?_of_ne {username u : String} {capacity : Nat} {S S' : Stores} {verb : Verb}
    {r : Result} (hu : u ≠ username) (hs : ∀ atMs, verb ≠ .sweep atMs)
    (h : verb.ram u capacity S = .ok (r, S')) : S'.get? username = S.get? username := by
  have hne : username ≠ u := hu.symm
  cases verb with
  | signup passwordHash =>
      simp only [Verb.ram] at h
      split at h
      · cases h
        rfl
      · split at h
        · cases h
          rw [Dict.get?_set, if_neg hne]
        · cases h
  | set key value expireAt =>
      simp only [Verb.ram] at h
      split at h
      · cases h
        rfl
      · split at h
        · cases h
        · cases h
          rw [Dict.get?_set, if_neg hne]
  | delete key atMs =>
      simp only [Verb.ram] at h
      split at h
      · cases h
        rfl
      · cases h
        rw [Dict.get?_set, if_neg hne, Dict.get?_set, if_neg hne]
  | expiry key expireAt atMs =>
      simp only [Verb.ram] at h
      split at h
      · cases h
        rfl
      · split at h
        · cases h
          rw [Dict.get?_set, if_neg hne]
        · cases h
          rw [Dict.get?_set, if_neg hne, Dict.get?_set, if_neg hne]
  | sweep atMs => exact absurd rfl (hs atMs)
  | unknown =>
      cases h
      rfl

/-- What a user's own command does in RAM. -/
theorem ram_of_get? {username : String} {capacity : Nat} {S S' : Stores} {verb : Verb}
    (hs : ∀ atMs, verb ≠ .sweep atMs) (h : S.get? username = S'.get? username) :
    SameOutcome (fun p q => p.1 = q.1 ∧ p.2.get? username = q.2.get? username)
      (verb.ram username capacity S) (verb.ram username capacity S') := by
  cases verb with
  | signup passwordHash =>
      simp only [Verb.ram, ← h]
      cases S.get? username with
      | some s => exact ⟨rfl, h⟩
      | none =>
          by_cases hc : 0 < capacity
          · simp only [hc, dite_true]
            exact ⟨rfl, by simp⟩
          · simp only [hc, dite_false]
            rfl
  | set key value expireAt =>
      simp only [Verb.ram, ← h]
      cases S.get? username with
      | none => exact ⟨rfl, h⟩
      | some s =>
          by_cases hk : key = ""
          · simp only [hk, if_true]
            rfl
          · simp only [hk, if_false]
            exact ⟨rfl, by simp⟩
  | delete key atMs =>
      simp only [Verb.ram, ← h]
      cases S.get? username with
      | none => exact ⟨rfl, h⟩
      | some s => exact ⟨rfl, by simp⟩
  | expiry key expireAt atMs =>
      simp only [Verb.ram, ← h]
      cases S.get? username with
      | none => exact ⟨rfl, h⟩
      | some s =>
          dsimp only
          split
          · exact ⟨rfl, by simp⟩
          · exact ⟨rfl, by simp⟩
  | sweep atMs => exact absurd rfl (hs atMs)
  | unknown => exact ⟨rfl, h⟩

theorem isolates_ram (username : String) (capacity : Nat) :
    Isolates username (fun S S' => S.get? username = S'.get? username) (ramCommand capacity) where
  stays e S S' hs h := by
    unfold ramCommand
    cases hv : e.verb with
    | error e => rfl
    | ok verb =>
        rcases verb_of_stays hs hv with rfl | ⟨atMs, rfl, hsweep⟩ | ⟨hne, hu⟩
        · exact ⟨fun _ => rfl, h⟩
        · refine ⟨fun hn => ?_, ?_⟩
          · rw [hsweep] at hn
            cases hn
          · rw [Dict.get?_mapValues, Dict.get?_mapValues, h]
        · rw [hu]
          exact (ram_of_get? hne h).mono fun p q hpq => ⟨fun _ => hpq.1, hpq.2⟩
  goes e S S' p hs h hp := by
    unfold ramCommand at hp
    cases hv : e.verb with
    | error e =>
        rw [hv] at hp
        cases hp
    | ok verb =>
        rw [hv] at hp
        obtain ⟨hu, hsweep⟩ := verb_of_goes hs hv
        exact (ram_get?_of_ne hu hsweep hp).trans h

/-- Do two references say the same of a user? -/
def Reference.SameFor (username : String) (r r' : Reference) : Prop :=
  r.users username = r'.users username ∧ r.entries username = r'.entries username

theorem Reference.update_of_ne (r : Reference) {username u : String} (hu : u ≠ username)
    (key : String) (item : Option (String × Option Int)) :
    (r.update u key item).entries username = r.entries username := by
  funext k
  exact if_neg fun h => hu h.1.symm

theorem Reference.SameFor.update {username : String} {r r' : Reference} (h : r.SameFor username r')
    (key : String) (item : Option (String × Option Int)) :
    (r.update username key item).SameFor username (r'.update username key item) := by
  refine ⟨h.1, ?_⟩
  funext k
  simp only [Reference.update, h.2]

/-- What the other users' writes do to the reference. -/
theorem Reference.run_of_ne {username u : String} {r r' : Reference} {verb : Verb} {a : Result}
    (hu : u ≠ username) (hs : ∀ atMs, verb ≠ .sweep atMs) (h : r.run u verb = .ok (a, r')) :
    r'.SameFor username r := by
  cases verb with
  | signup passwordHash =>
      simp only [Reference.run] at h
      split at h
      · cases h
        exact ⟨rfl, rfl⟩
      · cases h
        exact ⟨if_neg hu.symm, rfl⟩
  | set key value expireAt =>
      simp only [Reference.run] at h
      split at h
      · cases h
        exact ⟨rfl, rfl⟩
      · split at h
        · cases h
        · cases h
          exact ⟨rfl, r.update_of_ne hu _ _⟩
  | delete key atMs =>
      simp only [Reference.run] at h
      split at h
      · cases h
        exact ⟨rfl, rfl⟩
      · cases h
        exact ⟨rfl, r.update_of_ne hu _ _⟩
  | expiry key expireAt atMs =>
      simp only [Reference.run] at h
      split at h
      · cases h
        exact ⟨rfl, rfl⟩
      · split at h
        · cases h
          exact ⟨rfl, rfl⟩
        · cases h
          exact ⟨rfl, r.update_of_ne hu _ _⟩
  | sweep atMs => exact absurd rfl (hs atMs)
  | unknown =>
      cases h
      exact ⟨rfl, rfl⟩

/-- What a user's own command does to the reference. -/
theorem Reference.SameFor.run {username : String} {r r' : Reference} {verb : Verb}
    (hs : ∀ atMs, verb ≠ .sweep atMs) (h : r.SameFor username r') :
    SameOutcome (fun p q => p.1 = q.1 ∧ p.2.SameFor username q.2)
      (r.run username verb) (r'.run username verb) := by
  cases verb with
  | signup passwordHash =>
      simp only [Reference.run, ← h.1]
      cases r.users username with
      | some s => exact ⟨rfl, h⟩
      | none => exact ⟨rfl, by simp, h.2⟩
  | set key value expireAt =>
      simp only [Reference.run, ← h.1]
      cases r.users username with
      | none => exact ⟨rfl, h⟩
      | some s =>
          by_cases hk : key = ""
          · simp only [hk, if_true]
            rfl
          · simp only [hk, if_false]
            exact ⟨rfl, h.update _ _⟩
  | delete key atMs =>
      simp only [Reference.run, ← h.1, ← h.2]
      cases r.users username with
      | none => exact ⟨rfl, h⟩
      | some s => exact ⟨rfl, h.update _ _⟩
  | expiry key expireAt atMs =>
      simp only [Reference.run, ← h.1, ← h.2]
      cases r.users username with
      | none => exact ⟨rfl, h⟩
      | some s =>
          dsimp only
          split
          · exact ⟨rfl, h⟩
          · exact ⟨rfl, h.update _ _⟩
  | sweep atMs => exact absurd rfl (hs atMs)
  | unknown => exact ⟨rfl, h⟩

theorem isolates_reference (username : String) :
    Isolates username (Reference.SameFor username) Reference.command where
  stays e r r' hs h := by
    unfold Reference.command
    cases hv : e.verb with
    | error e => rfl
    | ok verb =>
        rcases verb_of_stays hs hv with rfl | ⟨atMs, rfl, hsweep⟩ | ⟨hne, hu⟩
        · exact ⟨fun _ => rfl, h⟩
        · refine ⟨fun hn => ?_, h.1, ?_⟩
          · rw [hsweep] at hn
            cases hn
          · funext k
            simp only [Reference.sweep, h.2]
        · rw [hu]
          exact (h.run hne).mono fun p q hpq => ⟨fun _ => hpq.1, hpq.2⟩
  goes e r r' p hs h hp := by
    unfold Reference.command at hp
    cases hv : e.verb with
    | error e =>
        rw [hv] at hp
        cases hp
    | ok verb =>
        rw [hv] at hp
        obtain ⟨hu, hsweep⟩ := verb_of_goes hs hv
        have hsame := Reference.run_of_ne hu hsweep hp
        exact ⟨hsame.1.trans h.1, hsame.2.trans h.2⟩

/-! ## The session table -/

/-- No request of this client is in an entry of the kind. -/
def Avoids (log : List LogEntry) (kind : LogEntry → Bool) (clientId : String) : Prop :=
  ∀ e ∈ log, ∀ id, e.request = some id → id.clientId = clientId → kind e = false

/-- The clients of a log are apart: no client id is on others' writes and
on entries that stay, or on sweeps and on the user's own requests, and the
session table has room for all of them. -/
structure Apart (username : String) (log : List LogEntry) : Prop where
  room : (clientIds log).card ≤ maxSessions
  others : ∀ e ∈ log, ∀ e' ∈ log, e.SharesClient e' → e.isOthers username = true →
    e'.isOthers username = true
  sweeps : ∀ e ∈ log, ∀ e' ∈ log, e.SharesClient e' → e.isSweep = true →
    e'.username = username → e'.isSweep = true

/-- Two session tables that agree on the clients that stay; the answers to
sweeps may differ. -/
structure SessionsAlike (username : String) (log : List LogEntry) (ss ss' : Sessions) : Prop where
  left : ∀ c s, ss.get? c = some s → c ∈ clientIds log
  right : ∀ c s, ss'.get? c = some s → c ∈ clientIds log
  same : ∀ c, Avoids log (LogEntry.isOthers username) c →
    Option.Rel (fun s s' => s.seq = s'.seq ∧ (Avoids log LogEntry.isSweep c → s.result = s'.result))
      (ss.get? c) (ss'.get? c)

section Sessions

variable {username : String} {log : List LogEntry} {ss ss' : Sessions} {e : LogEntry}
  {id : RequestId}

theorem Apart.avoids_others (h : Apart username log) (he : e ∈ log) (hid : e.request = some id)
    (hs : e.isOthers username = false) : Avoids log (LogEntry.isOthers username) id.clientId := by
  intro e' he' id' hid' hc
  by_contra hk
  have := h.others e' he' e he ⟨id', id, hid', hid, hc⟩ (by simpa using hk)
  rw [hs] at this
  cases this

theorem Apart.avoids_sweeps (h : Apart username log) (he : e ∈ log) (hid : e.request = some id)
    (hu : e.username = username) (hs : e.isSweep = false) :
    Avoids log LogEntry.isSweep id.clientId := by
  intro e' he' id' hid' hc
  by_contra hk
  have := h.sweeps e' he' e he ⟨id', id, hid', hid, hc⟩ (by simpa using hk) hu
  rw [hs] at this
  cases this

theorem record_in_room (h : Apart username log) (hl : ∀ c s, ss.get? c = some s → c ∈ clientIds log)
    (he : e ∈ log) (hid : e.request = some id) (r : Result) (index : Nat) :
    ss.record id r index = ss.set id.clientId ⟨id.seq, r, index⟩ ∧
      ∀ c s, (ss.record id r index).get? c = some s → c ∈ clientIds log := by
  have hset : ∀ c s, Dict.get? (ss.set id.clientId ⟨id.seq, r, index⟩) c = some s →
      c ∈ clientIds log := by
    intro c s hs
    rw [Dict.get?_set] at hs
    split at hs
    · next hc => exact mem_clientIds.mpr ⟨e, he, id, hid, hc.symm⟩
    · exact hl c s hs
  have hrec : ss.record id r index = ss.set id.clientId ⟨id.seq, r, index⟩ :=
    Sessions.record_of_size ((Sessions.size_le_card _ hset).trans h.room)
  refine ⟨hrec, ?_⟩
  rw [hrec]
  exact hset

/-- An answer recorded in both tables. -/
theorem SessionsAlike.record (ha : SessionsAlike username log ss ss') (h : Apart username log)
    (he : e ∈ log) (hid : e.request = some id) {r r' : Result} (hr : e.isSweep = false → r = r') (index : Nat) :
    SessionsAlike username log (ss.record id r index) (ss'.record id r' index) := by
  obtain ⟨hl, hleft⟩ := record_in_room h ha.left he hid r index
  obtain ⟨hr', hright⟩ := record_in_room h ha.right he hid r' index
  refine ⟨hleft, hright, ?_⟩
  intro c hc
  rw [hl, hr', Dict.get?_set, Dict.get?_set]
  by_cases hcid : c = id.clientId
  · rw [if_pos hcid, if_pos hcid]
    exact Option.Rel.some ⟨rfl, fun hsw => hr (hsw e he id hid hcid.symm)⟩
  · rw [if_neg hcid, if_neg hcid]
    exact ha.same c hc

/-- An answer to another user's write, recorded in the first table. -/
theorem SessionsAlike.record_others (ha : SessionsAlike username log ss ss')
    (h : Apart username log) (he : e ∈ log) (hid : e.request = some id) (hs : e.isOthers username = true) (r : Result) (index : Nat) :
    SessionsAlike username log (ss.record id r index) ss' := by
  obtain ⟨hl, hleft⟩ := record_in_room h ha.left he hid r index
  refine ⟨hleft, ha.right, ?_⟩
  intro c hc
  have hne : c ≠ id.clientId := by
    rintro rfl
    have := hc e he id hid rfl
    rw [hs] at this
    cases this
  rw [hl, Dict.get?_set, if_neg hne]
  exact ha.same c hc

/-- What the tables answer to a request that stays. -/
theorem SessionsAlike.answerTo (ha : SessionsAlike username log ss ss')
    (hc : Avoids log (LogEntry.isOthers username) id.clientId) :
    Option.Rel (fun a a' => Avoids log LogEntry.isSweep id.clientId → a = a')
      (ss.answerTo id) (ss'.answerTo id) := by
  have h := ha.same id.clientId hc
  unfold Sessions.answerTo
  cases hs : ss.get? id.clientId with
  | none =>
      rw [hs] at h
      cases hs' : ss'.get? id.clientId with
      | none => exact Option.Rel.none
      | some s' =>
          rw [hs'] at h
          cases h
  | some s =>
      rw [hs] at h
      cases hs' : ss'.get? id.clientId with
      | none =>
          rw [hs'] at h
          cases h
      | some s' =>
          rw [hs'] at h
          cases h with
          | some hss =>
              dsimp only
              rw [hss.1]
              split
              · exact Option.Rel.none
              · split
                · exact Option.Rel.some hss.2
                · exact Option.Rel.some fun _ => rfl

variable {σ : Type} {V : σ → σ → Prop} {command : LogEntry → σ → Except SmError (Result × σ)}
  {s s' : σ}

/-- An entry that stays, applied with and without the others' writes before
it. -/
theorem Isolates.apply_stays (iso : Isolates username V command) (h : Apart username log)
    (he : e ∈ log) (hs : e.isOthers username = false) (hV : V s s')
    (ha : SessionsAlike username log ss ss') :
    SameOutcome (fun p q => (e.username = username → e.isSweep = false → p.1 = q.1) ∧
        V p.2.1 q.2.1 ∧ SessionsAlike username log p.2.2 q.2.2)
      (applyWith (command e) e s ss) (applyWith (command e) e s' ss') := by
  have hcmd := iso.stays e s s' hs hV
  unfold applyWith
  by_cases hreq : e.requestId = ""
  · rw [if_pos hreq, if_pos hreq]
    exact hcmd.map fun p q hpq => ⟨fun _ => hpq.1, hpq.2, ha⟩
  · rw [if_neg hreq, if_neg hreq]
    cases hp : parseRequestId e.requestId with
    | error err => rfl
    | ok id =>
        have hid : e.request = some id := by
          simp [LogEntry.request, hreq, hp, Except.toOption]
        have hans := ha.answerTo (h.avoids_others he hid hs)
        dsimp only
        cases hl : ss.answerTo id with
        | none =>
            rw [hl] at hans
            cases hr : ss'.answerTo id with
            | none =>
                exact hcmd.map fun p q hpq =>
                  ⟨fun _ => hpq.1, hpq.2, ha.record h he hid hpq.1 e.index⟩
            | some a' =>
                rw [hr] at hans
                cases hans
        | some a =>
            rw [hl] at hans
            cases hr : ss'.answerTo id with
            | none =>
                rw [hr] at hans
                cases hans
            | some a' =>
                rw [hr] at hans
                cases hans with
                | some hans =>
                    exact ⟨fun hu hsw => hans (h.avoids_sweeps he hid hu hsw), hV, ha⟩

/-- Another user's write leaves the user's part as it was. -/
theorem Isolates.apply_goes (iso : Isolates username V command) (h : Apart username log)
    (he : e ∈ log) (hs : e.isOthers username = true) (hV : V s s')
    (ha : SessionsAlike username log ss ss')
    {p : Result × σ × Sessions} (hp : applyWith (command e) e s ss = .ok p) :
    V p.2.1 s' ∧ SessionsAlike username log p.2.2 ss' := by
  have hcmd {g : Result × σ → Sessions} (hg : ∀ q, SessionsAlike username log (g q) ss')
      (hq : ((command e s).map fun q => (q.1, q.2, g q)) = .ok p) :
      V p.2.1 s' ∧ SessionsAlike username log p.2.2 ss' := by
    cases hc : command e s with
    | error err =>
        rw [hc] at hq
        cases hq
    | ok q =>
        rw [hc] at hq
        cases hq
        exact ⟨iso.goes e s s' q hs hV hc, hg q⟩
  unfold applyWith at hp
  split at hp
  · exact hcmd (fun _ => ha) hp
  · next hreq =>
      split at hp
      · cases hp
      · next id hid =>
          have hid : e.request = some id := by
            simp [LogEntry.request, hreq, hid, Except.toOption]
          split at hp
          · cases hp
            exact ⟨hV, ha⟩
          · exact hcmd (fun q => ha.record_others h he hid hs q.1 e.index) hp

end Sessions

/-! ## Runs -/

/-- The answer to an entry, if it is the user's own and no sweep. -/
def ownAnswer (username : String) (entry : LogEntry) (r : Result) : List Result :=
  if entry.username = username ∧ entry.isSweep = false then [r] else []

/-- The answers to the user's own entries. -/
def answersOf (username : String) (log : List LogEntry) (rs : List Result) : List Result :=
  (List.zipWith (ownAnswer username) log rs).flatten

/-- Apply an entry for the answer to it, if it is the user's own. -/
def applyFor (username : String) (entry : LogEntry) : M (List Result) := do
  let r ← apply entry
  pure (ownAnswer username entry r)

/-- Apply a log for the answers to the user's own entries. -/
def answersTo (username : String) (log : List LogEntry) : M (List Result) := do
  let rs ← applyLog log
  pure (answersOf username log rs)

/-- Do the applies of the other users' writes all return? -/
def othersReturn (username : String) : CacheStateMachine → List LogEntry → Bool
  | _, [] => true
  | m, e :: log =>
    match (apply e).run m with
    | .ok _ m' => othersReturn username m' log
    | .error _ _ => !e.isOthers username

theorem answersTo_cons (username : String) (e : LogEntry) (log : List LogEntry) :
    answersTo username (e :: log) = (do
      let a ← applyFor username e
      let rest ← answersTo username log
      pure (a ++ rest)) := by
  unfold answersTo applyFor
  rw [applyLog]
  simp only [bind_assoc, pure_bind]
  rfl

/-- A relation between a machine that applies a log and one that applies it
without the other users' writes. -/
structure Isolated (username : String) (log : List LogEntry)
    (T : CacheStateMachine → CacheStateMachine → Prop) : Prop where
  stays : ∀ e ∈ log, e.isOthers username = false → ∀ m m', T m m' →
    SameEnd T ((applyFor username e).run m) ((applyFor username e).run m')
  goes : ∀ e ∈ log, e.isOthers username = true → ∀ m m' r m₁, T m m' →
    (apply e).run m = .ok r m₁ → T m₁ m'

theorem Isolated.run {username : String} {log : List LogEntry}
    {T : CacheStateMachine → CacheStateMachine → Prop} (iso : Isolated username log T)
    {part : List LogEntry} (hpart : ∀ e ∈ part, e ∈ log) {m m' : CacheStateMachine} (h : T m m')
    (hret : othersReturn username m part = true) :
    SameEnd T ((answersTo username part).run m)
      ((answersTo username (withoutOthers username part)).run m') := by
  induction part generalizing m m' with
  | nil => exact ⟨rfl, h⟩
  | cons e part ih =>
      have hrest : ∀ e ∈ part, e ∈ log := fun e' he' => hpart e' (by simp [he'])
      have hmem := hpart e (by simp)
      rw [answersTo_cons]
      cases hs : e.isOthers username with
      | false =>
          have hstep := iso.stays e hmem hs m m' h
          rw [withoutOthers, List.filter_cons_of_pos (by simp [hs]), answersTo_cons]
          have hboth : SameEnd (fun m₁ m₁' => T m₁ m₁' ∧ othersReturn username m₁ part = true)
              ((applyFor username e).run m)
              ((applyFor username e).run m') := by
            rw [othersReturn] at hret
            generalize (applyFor username e).run m' = y at hstep ⊢
            unfold applyFor at hstep ⊢
            rw [EStateM.run_bind] at hstep ⊢
            cases hrun : (apply e).run m with
            | error err m₁ =>
                rw [hrun] at hstep
                cases y with
                | error err' m₂ => exact hstep
                | ok a m₂ => exact hstep.elim
            | ok r m₁ =>
                rw [hrun] at hstep hret
                cases y with
                | error err' m₂ => exact hstep.elim
                | ok a m₂ => exact ⟨hstep.1, hstep.2, hret⟩
          refine hboth.bind ?_
          intro a m₁ m₁' h₁
          refine (ih hrest h₁.1 h₁.2).bind ?_
          intro rest m₂ m₂' h₂
          exact ⟨rfl, h₂⟩
      | true =>
          rw [withoutOthers, List.filter_cons_of_neg (by simp [hs])]
          rw [othersReturn] at hret
          cases hrun : (apply e).run m with
          | error err m₁ =>
              rw [hrun] at hret
              simp [hs] at hret
          | ok r m₁ =>
              rw [hrun] at hret
              have hown : ownAnswer username e r = [] := by
                refine if_neg ?_
                rintro ⟨hu, -⟩
                simp [LogEntry.isOthers, hu] at hs
              have hcont : (do
                  let a ← applyFor username e
                  let rest ← answersTo username part
                  pure (a ++ rest)).run m = (answersTo username part).run m₁ := by
                unfold applyFor
                rw [EStateM.run_bind, EStateM.run_bind, hrun]
                dsimp only
                rw [hown]
                simp
              rw [hcont]
              exact ih hrest (iso.goes e hmem hs m m' r m₁ h hrun) hret

/-! ## Machines -/

/-- A user's password hash. -/
def CacheStateMachine.hashOf (m : CacheStateMachine) (username : String) : Option String :=
  if m.useDb then m.db.users.get? username
  else (m.stores.get? username).map (·.passwordHash)

/-- What is stored under a user's key: the value and the expiry time. -/
def CacheStateMachine.itemOf (m : CacheStateMachine) (username key : String) :
    Option (String × Option Int) :=
  if m.useDb then m.db.getEntryWithExpiry username key
  else (m.stores.get? username).bind (·.peek key)

/-- The same password hash, keys, values and expiry times of a user. -/
structure SameUser (username : String) (m m' : CacheStateMachine) : Prop where
  hash : m.hashOf username = m'.hashOf username
  items : ∀ key, m.itemOf username key = m'.itemOf username key

/-- In RAM, with and without the other users' writes. -/
structure RamApart (username : String) (log : List LogEntry) (capacity : Nat)
    (m m' : CacheStateMachine) : Prop where
  left : m.useDb = false
  right : m'.useDb = false
  size : m.capacity = capacity
  size' : m'.capacity = capacity
  store : m.stores.get? username = m'.stores.get? username
  sessions : SessionsAlike username log m.sessions m'.sessions

/-- With a database, with and without the other users' writes. -/
structure DbApart (username : String) (log : List LogEntry) (m m' : CacheStateMachine) : Prop where
  left : Coherent m
  right : Coherent m'
  part : m.db.reference.SameFor username m'.db.reference
  sessions : SessionsAlike username log m.sessions m'.sessions

section Machines

variable {username : String} {log : List LogEntry} {capacity : Nat} {m m' : CacheStateMachine}

theorem RamApart.same (h : RamApart username log capacity m m') : SameUser username m m' := by
  refine ⟨?_, fun key => ?_⟩
  · simp [CacheStateMachine.hashOf, h.left, h.right, h.store]
  · simp [CacheStateMachine.itemOf, h.left, h.right, h.store]

theorem DbApart.same (h : DbApart username log m m') : SameUser username m m' := by
  refine ⟨?_, fun key => ?_⟩
  · have hu := h.part.1
    rw [Database.users_reference, Database.users_reference] at hu
    simp [CacheStateMachine.hashOf, h.left.useDb, h.right.useDb, hu]
  · have hk := congrFun h.part.2 key
    unfold CacheStateMachine.itemOf
    rw [if_pos h.left.useDb, if_pos h.right.useDb]
    exact hk

/-- Equal answers to the user's own entries, as lists. -/
theorem ownAnswer_congr {e : LogEntry} {r r' : Result}
    (h : e.username = username → e.isSweep = false → r = r') :
    ownAnswer username e r = ownAnswer username e r' := by
  unfold ownAnswer
  split
  · next hown => rw [h hown.1 hown.2]
  · rfl

theorem isolated_ram (h : Apart username log) :
    Isolated username log (RamApart username log capacity) where
  stays e he hs m m' hT := by
    have hrel := (isolates_ram username capacity).apply_stays h he hs hT.store hT.sessions
    have hl := run_apply_ram hT.left e
    have hr := run_apply_ram hT.right e
    unfold ramApply at hl hr
    rw [hT.size] at hl
    rw [hT.size'] at hr
    unfold applyFor
    rw [EStateM.run_bind, EStateM.run_bind, hl, hr]
    generalize applyWith (ramCommand capacity e) e m.stores m.sessions = x at hrel
    generalize applyWith (ramCommand capacity e) e m'.stores m'.sessions = y at hrel
    cases x with
    | error err =>
        cases y with
        | error err' => exact hrel
        | ok q => exact hrel.elim
    | ok p =>
        cases y with
        | error err' => exact hrel.elim
        | ok q =>
            obtain ⟨hans, hstore, hss⟩ := hrel
            exact ⟨ownAnswer_congr hans, hT.left, hT.right, rfl, rfl, hstore, hss⟩
  goes e he hs m m' r m₁ hT hrun := by
    rw [run_apply_ram hT.left e, hT.size] at hrun
    unfold ramApply at hrun
    cases hp : applyWith (ramCommand capacity e) e m.stores m.sessions with
    | error err =>
        rw [hp] at hrun
        cases hrun
    | ok p =>
        rw [hp] at hrun
        cases hrun
        obtain ⟨hstore, hss⟩ :=
          (isolates_ram username capacity).apply_goes h he hs hT.store hT.sessions hp
        exact ⟨hT.left, hT.right, rfl, hT.size', hstore, hss⟩

theorem isolated_db (h : Apart username log) : Isolated username log (DbApart username log) where
  stays e he hs m m' hT := by
    have hrel := (isolates_reference username).apply_stays h he hs hT.part hT.sessions
    have hl := wp_apply_db hT.left e
    have hr := wp_apply_db hT.right e
    unfold wp at hl hr
    unfold applyFor
    rw [EStateM.run_bind, EStateM.run_bind]
    generalize (apply e).run m = x at hl
    generalize (apply e).run m' = y at hr
    cases x with
    | error err m₁ =>
        rw [hl.1] at hrel
        cases y with
        | error err' m₂ =>
            rw [hr.1] at hrel
            exact hrel
        | ok b m₂ =>
            rw [hr.1] at hrel
            exact hrel.elim
    | ok a m₁ =>
        rw [hl.1] at hrel
        cases y with
        | error err' m₂ =>
            rw [hr.1] at hrel
            exact hrel.elim
        | ok b m₂ =>
            rw [hr.1] at hrel
            obtain ⟨hans, hpart, hss⟩ := hrel
            exact ⟨ownAnswer_congr hans, hl.2.1, hr.2.1, hpart, hss⟩
  goes e he hs m m' r m₁ hT hrun := by
    have hl := wp_apply_db hT.left e
    rw [wp_of_run_ok hrun] at hl
    obtain ⟨hpart, hss⟩ :=
      (isolates_reference username).apply_goes h he hs hT.part hT.sessions hl.1
    exact ⟨hl.2.1, hT.right, hpart, hss⟩

/-- Users are isolated as far as their client ids are: without the other
users' writes a log gives the user the same answers (to all but sweeps) and
leaves the same password hash, keys, values and expiry times. -/
theorem users_are_isolated {useDb : Bool} (hc : useDb = true → 0 < capacity) (clock : List Int)
    (h : Apart username log)
    (hret : othersReturn username (machineOf useDb capacity clock) log = true) :
    SameEnd (SameUser username)
      ((answersTo username log).run (machineOf useDb capacity clock))
      ((answersTo username (withoutOthers username log)).run (machineOf useDb capacity clock)) := by
  have halike : SessionsAlike username log Dict.empty Dict.empty := by
    refine ⟨?_, ?_, fun _ _ => Option.Rel.none⟩
    · intro c s hs
      cases hs
    · intro c s hs
      cases hs
  cases useDb with
  | false =>
      have hstart : RamApart username log capacity (machineOf false capacity clock)
          (machineOf false capacity clock) := ⟨rfl, rfl, rfl, rfl, rfl, halike⟩
      exact ((isolated_ram h).run (fun _ he => he) hstart hret).mono fun _ _ hT => hT.same
  | true =>
      have hfresh := coherent_machineOf (hc rfl) clock
      have hstart : DbApart username log (machineOf true capacity clock)
          (machineOf true capacity clock) := ⟨hfresh, hfresh, ⟨rfl, rfl⟩, halike⟩
      exact ((isolated_db h).run (fun _ he => he) hstart hret).mono fun _ _ hT => hT.same

/-- Another connection used zoe's client id, with a larger number. -/
def sharedTag : List LogEntry :=
  [⟨1, 1, .write "SIGNUP h", "zoe", ""⟩, ⟨1, 2, .write "SIGNUP g", "ben", ""⟩,
   ⟨1, 3, .write "SET a 1", "ben", "c1:5"⟩, ⟨1, 4, .write "SET k v", "zoe", "c1:1"⟩]

/-- A sweep of zoe's counts another user's key. -/
def sweptTogether : List LogEntry :=
  [⟨1, 1, .write "SIGNUP g", "ben", ""⟩, ⟨1, 2, .write "SETEX a 900 1", "ben", ""⟩,
   ⟨1, 3, .write "SWEEP 950", "zoe", ""⟩]

/-- Another user's write that can never be applied. -/
def stuckWrite : List LogEntry :=
  [⟨1, 1, .write "SETEX a soon 1", "ben", ""⟩, ⟨1, 2, .write "SIGNUP h", "zoe", ""⟩]

theorem users_are_not_isolated :
    (value? (answersTo "zoe" sharedTag) (machineOf false 2 []) = some [.bool true, .none] ∧
      value? (answersTo "zoe" (withoutOthers "zoe" sharedTag)) (machineOf false 2 [])
        = some [.bool true, .bool true] ∧
      (after (applyLog sharedTag) (machineOf false 2 [])).itemOf "zoe" "k" = none ∧
      (after (applyLog (withoutOthers "zoe" sharedTag)) (machineOf false 2 [])).itemOf "zoe" "k"
        = some ("v", none)) ∧
    (value? (applyLog sweptTogether) (machineOf false 2 [])
        = some [.bool true, .bool true, .int 1] ∧
      value? (applyLog (withoutOthers "zoe" sweptTogether)) (machineOf false 2 [])
        = some [.int 0]) ∧
    (value? (applyLog stuckWrite) (machineOf false 2 []) = none ∧
      value? (applyLog (withoutOthers "zoe" stuckWrite)) (machineOf false 2 [])
        = some [.bool true]) := by
  decide +kernel

/-- Both users write with client ids of their own, and a sweep comes by. -/
def ownTags : List LogEntry :=
  [⟨1, 1, .write "SIGNUP h", "zoe", "c1:1"⟩, ⟨1, 2, .write "SIGNUP g", "ben", "c2:7"⟩,
   ⟨1, 3, .write "SETEX k 900 v", "ben", "c2:8"⟩, ⟨1, 4, .write "SETEX k 900 v", "zoe", "c1:2"⟩,
   ⟨1, 5, .write "SWEEP 950", "", ""⟩, ⟨1, 6, .write "DELETE k 960", "zoe", "c1:3"⟩]

theorem apart_ownTags : Apart "zoe" ownTags := by
  have hclients : ∀ e ∈ ownTags, ∀ id ∈ e.request,
      id.clientId = if e.isOthers "zoe" then "c2" else "c1" := by decide +kernel
  have hsweeps : ∀ e ∈ ownTags, ∀ id ∈ e.request, e.isSweep = false := by decide +kernel
  refine ⟨?_, ?_, ?_⟩
  · refine (List.toFinset_card_le _).trans ((List.length_filterMap_le _ _).trans ?_)
    decide
  · rintro e he e' he' ⟨id, id', hid, hid', hc⟩ hs
    rw [hclients e he id hid, hclients e' he' id' hid', hs] at hc
    by_contra hn
    simp [hn] at hc
  · rintro e he e' he' ⟨id, id', hid, hid', hc⟩ hs
    rw [hsweeps e he id hid] at hs
    cases hs

-- the runs in the statement are not to be evaluated
attribute [local irreducible] SameEnd

theorem users_are_isolated_tags :
    SameEnd (SameUser "zoe")
      ((answersTo "zoe" ownTags).run (machineOf true 1 [1, 2]))
      ((answersTo "zoe" (withoutOthers "zoe" ownTags)).run (machineOf true 1 [1, 2])) :=
  users_are_isolated (fun _ => Nat.one_pos) [1, 2] apart_ownTags (by decide +kernel)

end Machines

end KvCache
