import KvCache.Requests
import KvCache.Sessions

/-!
# What OK says

The handlers of SET and SETEX answer OK whatever the result of the write
is. A request that arrives after a larger number of its client has been
applied gets no result at all, so its OK is empty; the same holds of a
request sent again after that. `ok_means_applied_iff` says of every log
exactly when this does not happen.

Both sides of it are about all places of a log. At each the machine is the one
that the entries before have left, and an entry either runs there (`RunsAt`) or
is answered from its client's session. `OkMeansApplied` is what a client would
like to rely on: an OK was earned by a write of its own key and value under its
own request id (`Wrote`), and a request that has run is answered with its first
result and does not run again. `InOrder` is the condition: a SET finds its
client's session behind its number, or has been applied before, and a retry
finds the session where its first copy left it.

A session only says what the last request of its client returned, while
`OkMeansApplied` speaks of entries that ran. The link is `session_lastRan`: a
session in the table holds the result of an entry of the log that ran with this
number, and no later entry of the same request ran after it (`LastRan`). From
that and the order follows that the answer of a standing session is the
original one (`answer_of_standing`); the other way, an OK that was earned shows
that the session was not ahead (`inOrder_of_applied`).

No bound on the number of clients is assumed. A session that was evicted is no
longer standing, and its request, sent again, runs again.
-/

namespace KvCache

open StateWp Interaction

/-! ## Runs of requests -/

/-- After `done`, `entry` runs and has this result. -/
structure RunsAt (m₀ : CacheStateMachine) (done : List LogEntry) (entry : LogEntry)
    (result : Result) : Prop where
  executes : Executes (after (applyLog done) m₀) entry
  result : value? (apply entry) (after (applyLog done) m₀) = some result

/-- Some entry of the log ran the request, with this result. -/
def Ran (m₀ : CacheStateMachine) (log : List LogEntry) (id : RequestId) (result : Result) : Prop :=
  ∃ done entry rest, log = done ++ entry :: rest ∧ entry.request = some id ∧
    RunsAt m₀ done entry result

/-- Some entry of the log with this request wrote the value under the key. -/
def Wrote (m₀ : CacheStateMachine) (log : List LogEntry) (id : RequestId)
    (username key value : String) : Prop :=
  ∃ done entry rest expireAt, log = done ++ entry :: rest ∧ entry.request = some id ∧
    entry.username = username ∧ entry.verb = .ok (.set key value expireAt) ∧
    RunsAt m₀ done entry (.bool true)

/-- A run after which the request did not run again. -/
def LastRan (m₀ : CacheStateMachine) (log : List LogEntry) (id : RequestId) (result : Result) :
    Prop :=
  ∃ done entry rest, log = done ++ entry :: rest ∧ entry.request = some id ∧
    RunsAt m₀ done entry result ∧
    ∀ mid entry' rest', rest = mid ++ entry' :: rest' → entry'.request = some id →
      ¬ Executes (after (applyLog (done ++ entry :: mid)) m₀) entry'

section Runs

variable {m₀ : CacheStateMachine} {log done rest : List LogEntry} {entry : LogEntry}
  {id : RequestId} {result : Result}

/-- A log in two parts. -/
theorem wp_applyLog_append {l l' : List LogEntry} {m : CacheStateMachine}
    {Q : List Result → CacheStateMachine → Prop} {R : SmError → CacheStateMachine → Prop} :
    wp (applyLog (l ++ l')) Q R m ↔
      wp (applyLog l) (fun rs => wp (applyLog l') (fun rs' => Q (rs ++ rs')) R) R m := by
  induction l generalizing m Q with
  | nil =>
      rw [List.nil_append, applyLog, wp_pure]
      exact wp_congr fun rs m' => Iff.rfl
  | cons e l ih =>
      rw [List.cons_append, applyLog, applyLog, wp_bind, wp_bind]
      refine wp_congr fun r m' => ?_
      rw [wp_bind, wp_bind, ih]
      exact wp_congr fun rs m'' => Iff.rfl

/-- A log that is applied is applied entry by entry. -/
theorem run_split {rs : List Result} {m : CacheStateMachine}
    (hrun : (applyLog (done ++ entry :: rest)).run m₀ = .ok rs m) :
    ∃ rs' r, (applyLog done).run m₀ = .ok rs' (after (applyLog done) m₀) ∧
      (apply entry).run (after (applyLog done) m₀)
        = .ok r (after (applyLog (done ++ [entry])) m₀) := by
  have h : wp (applyLog (done ++ entry :: rest)) (fun _ _ => True) (fun _ _ => False) m₀ :=
    (wp_of_run_ok hrun).mpr trivial
  rw [wp_applyLog_append, applyLog] at h
  unfold wp at h
  cases hd : (applyLog done).run m₀ with
  | error e m₁ =>
      rw [hd] at h
      exact h.elim
  | ok rs' m₁ =>
      rw [hd] at h
      have hm₁ : after (applyLog done) m₀ = m₁ := by rw [after, hd]
      cases ha : (apply entry).run m₁ with
      | error e m₂ =>
          dsimp only at h
          rw [EStateM.run_bind, ha] at h
          exact h.elim
      | ok r m₂ =>
          refine ⟨rs', r, by rw [hm₁], ?_⟩
          have hsnoc : wp (applyLog (done ++ [entry])) (fun _ m' => m' = m₂)
              (fun _ m' => m' = m₂) m₀ := by
            rw [wp_applyLog_snoc, wp_of_run_ok hd, wp_of_run_ok ha]
          rw [hm₁, ha, (wp_after (P := fun m' => m' = m₂)).mp hsnoc]

theorem value?_of_run {α : Type} {x : M α} {m m' : CacheStateMachine} {a : α}
    (h : x.run m = .ok a m') : value? x m = some a := by
  rw [value?, h]

/-- What is in the table after a request was recorded: its session, or one of
another client from before. -/
theorem get?_record {sessions : Sessions} {index : Nat} {c : String} {s : Session}
    (h : Dict.get? (sessions.record id result index) c = some s) :
    (c = id.clientId ∧ s = ⟨id.seq, result, index⟩) ∨
      (c ≠ id.clientId ∧ sessions.get? c = some s) := by
  have hset : Dict.get? (sessions.set id.clientId ⟨id.seq, result, index⟩) c = some s := by
    unfold Sessions.record Sessions.without at h
    dsimp only at h
    split at h
    · rw [Dict.get?_erase] at h
      split at h
      · cases h
      · exact h
    · exact h
  rw [Dict.get?_set] at hset
  split at hset
  · next hc => exact Or.inl ⟨hc, (Option.some.inj hset).symm⟩
  · next hc => exact Or.inr ⟨hc, hset⟩

/-- One more entry, which does not run the request. -/
theorem LastRan.snoc (h : LastRan m₀ log id result)
    (he : entry.request = some id → ¬ Executes (after (applyLog log) m₀) entry) :
    LastRan m₀ (log ++ [entry]) id result := by
  obtain ⟨done, first, rest, rfl, hid, hruns, hlast⟩ := h
  refine ⟨done, first, rest ++ [entry], by simp, hid, hruns, fun mid entry' rest' hsplit hid' => ?_⟩
  rcases List.eq_nil_or_concat rest' with rfl | ⟨rest'', e, rfl⟩
  · obtain ⟨rfl, heq⟩ := List.append_inj' hsplit rfl
    obtain rfl := (List.cons.inj heq).1
    exact he hid'
  · have hsplit' : rest ++ [entry] = (mid ++ entry' :: rest'') ++ [e] := by simpa using hsplit
    obtain ⟨hrest, -⟩ := List.append_inj' hsplit' rfl
    exact hlast mid entry' rest'' hrest hid'

/-- A session holds what its client's request with this number answered
when it last ran. -/
theorem session_lastRan (hm₀ : m₀.sessions = Dict.empty) {rs : List Result}
    {m : CacheStateMachine} (hrun : (applyLog log).run m₀ = .ok rs m) {c : String} {s : Session}
    (hs : m.sessions.get? c = some s) : LastRan m₀ log ⟨c, s.seq⟩ s.result := by
  induction log using List.reverseRecOn generalizing rs m c s with
  | nil =>
      cases hrun
      rw [hm₀] at hs
      cases hs
  | append_singleton log e ih =>
      obtain ⟨rs', r, hlog, he⟩ := run_split hrun
      have hm : after (applyLog (log ++ [e])) m₀ = m := by rw [after, hrun]
      have hstep := sessions_apply e (after (applyLog log) m₀)
      rw [wp_of_run_ok he, hm] at hstep
      have hold : (after (applyLog log) m₀).sessions.get? c = some s →
          (e.request = some ⟨c, s.seq⟩ → ¬ Executes (after (applyLog log) m₀) e) →
          LastRan m₀ (log ++ [e]) ⟨c, s.seq⟩ s.result := fun h hn => (ih hlog h).snoc hn
      cases hid : e.request with
      | none =>
          rw [hid] at hstep
          exact hold (hstep ▸ hs) fun h => by rw [hid] at h; cases h
      | some id =>
          rw [hid] at hstep
          cases ha : (after (applyLog log) m₀).sessions.answerTo id with
          | some a =>
              simp only [ha] at hstep
              refine hold (hstep.2 ▸ hs) fun _ hex => ?_
              rw [hex id hid] at ha
              cases ha
          | none =>
              simp only [ha] at hstep
              rw [hstep] at hs
              rcases get?_record hs with ⟨rfl, rfl⟩ | ⟨hc, hs⟩
              · refine ⟨log, e, [], rfl, hid, ⟨fun id' hid' => ?_, value?_of_run he⟩, ?_⟩
                · rw [hid] at hid'
                  exact Option.some.inj hid' ▸ ha
                · intro mid entry' rest' h
                  simp at h
              · refine hold hs fun h => ?_
                rw [hid] at h
                exact absurd (congrArg RequestId.clientId (Option.some.inj h)).symm hc

end Runs

/-! ## What a client is told -/

/-- A SET or SETEX that the server submits as the entry, with the request id
of its tag. -/
inductive SetRequest (entry : LogEntry) (key value : String) : Served Unit → Prop where
  | set {conn : ClientConnection} {args : String} :
      splitUpTo 1 args = [key, value] → key.length ≤ maxKeyLength →
      entry.command = .write s!"SET {key} {value}" →
      SetRequest entry key value
        (TCPServer.cmdSet conn entry.username args (some entry.requestId))
  | setex {conn : ClientConnection} {now secs : Int} {args text : String} :
      splitUpTo 2 args = [key, text, value] → seconds text = pure (some secs) →
      key.length ≤ maxKeyLength → PyText.isPrintable (now + secs * 1000) = true →
      entry.command = .write s!"SETEX {key} {(now + secs * 1000).repr} {value}" →
      SetRequest entry key value
        (TCPServer.cmdSetex conn now entry.username args (some entry.requestId))

/-- The entry is what was submitted, and this is its result. -/
def AnsweredWith (entry : LogEntry) (result : Result) :
    ∀ {β : Type}, ServerCall β → β → Prop
  | _, .submit command username requestId, answer =>
    entry.command = .write command ∧ entry.username = username ∧
      entry.requestId = requestId ∧ answer = .ok result
  | _, _, _ => True

/-- Where OK is sent, `S` holds. -/
def OkOnlyIf (S : Prop) : ∀ {β : Type}, ServerCall β → Prop
  | _, .send message => message = "OK" → S
  | _, _ => True

/-- The user exists. -/
def UserExists (m : CacheStateMachine) (username : String) : Prop :=
  ∃ store, value? (getStore username) m = some (some store)

/-- OK means applied, all along a log: where a tagged SET or SETEX of an
existing user is answered OK, its own key and value have been written under
its request id; and a request that has run, with a result, is answered with
that result and does not run again. -/
structure OkMeansApplied (m₀ : CacheStateMachine) (log : List LogEntry) : Prop where
  written : ∀ done entry rest, log = done ++ entry :: rest → ∀ id, entry.request = some id →
    ∀ key value p, SetRequest entry key value p →
      UserExists (after (applyLog done) m₀) entry.username →
      ∀ result, value? (apply entry) (after (applyLog done) m₀) = some result →
        p.Always (AnsweredWith entry result)
          (OkOnlyIf (Wrote m₀ (done ++ [entry]) id entry.username key value))
          (fun _ => True) fun _ => True
  original : ∀ done entry rest, log = done ++ entry :: rest → ∀ id, entry.request = some id →
    ∀ result, Ran m₀ done id result → result ≠ .none →
      ¬ Executes (after (applyLog done) m₀) entry ∧
        value? (apply entry) (after (applyLog done) m₀) = some result

/-- The client's session is at this number or beyond. -/
def Reached (sessions : Sessions) (id : RequestId) : Prop :=
  ∃ s, sessions.get? id.clientId = some s ∧ id.seq ≤ s.seq

/-- The order in which requests arrive is harmless: where a tagged SET or
SETEX of an existing user finds its client's session at its number or
beyond, an earlier entry with its id wrote its key and value; and where a
request that has run with a result is sent again, its client's session is
still there and still at its number. -/
structure InOrder (m₀ : CacheStateMachine) (log : List LogEntry) : Prop where
  written : ∀ done entry rest, log = done ++ entry :: rest → ∀ id, entry.request = some id →
    ∀ key value p, SetRequest entry key value p →
      UserExists (after (applyLog done) m₀) entry.username →
      Reached (after (applyLog done) m₀).sessions id →
      Wrote m₀ done id entry.username key value
  standing : ∀ done entry rest, log = done ++ entry :: rest → ∀ id, entry.request = some id →
    ∀ result, Ran m₀ done id result → result ≠ .none →
      ∃ s, (after (applyLog done) m₀).sessions.get? id.clientId = some s ∧ s.seq = id.seq

section Told

variable {m₀ : CacheStateMachine} {log done rest : List LogEntry} {entry : LogEntry}
  {id : RequestId} {result : Result} {key value : String} {p : Served Unit}

theorem always_say {S : Prop} :
    (send "OK").Always (AnsweredWith entry result) (OkOnlyIf S) (fun _ => True)
      (fun _ => True) ↔ S :=
  ⟨fun h => h.1 rfl, fun h => ⟨fun _ => h, fun _ _ => trivial⟩⟩

/-- The submission of the entry returns its result. -/
theorem always_submitted {conn : ClientConnection} {command : String}
    (hcommand : entry.command = .write command) {S : Prop} {Q : Option Result → Prop} :
    (TCPServer.submit conn entry.username command (some entry.requestId)).Always
      (AnsweredWith entry result) (OkOnlyIf S) Q (fun _ => True) ↔ Q (some result) := by
  unfold TCPServer.submit
  simp only [Prog.always_tryCatch, Prog.always_bind, Prog.always_askOrRaise, Prog.always_pure]
  constructor
  · intro h
    exact h.2.1 result ⟨hcommand, rfl, rfl, rfl⟩
  · refine fun h => ⟨trivial, fun r hr => ?_, fun e he => ?_⟩
    · obtain ⟨-, -, -, ha⟩ := hr
      cases ha
      exact h
    · obtain ⟨-, -, -, ha⟩ := he
      cases ha

/-- A SET or SETEX is answered OK, whatever its result. -/
theorem always_ok (h : SetRequest entry key value p) (S : Prop) :
    p.Always (AnsweredWith entry result) (OkOnlyIf S) (fun _ => True) (fun _ => True) ↔ S := by
  cases h with
  | set hargs hlen hcommand =>
      unfold TCPServer.cmdSet validKey
      rw [hargs]
      dsimp only
      rw [if_neg (Nat.not_lt.mpr hlen), Prog.always_bind, Prog.always_pure, if_pos rfl,
        Prog.always_bind, always_submitted hcommand, always_say]
  | setex hargs hsecs hlen hprint hcommand =>
      unfold TCPServer.cmdSetex validKey strOfInt
      rw [hargs]
      dsimp only
      rw [hsecs, Prog.always_bind, Prog.always_pure]
      dsimp only
      rw [if_neg (Nat.not_lt.mpr hlen), Prog.always_bind, Prog.always_pure, if_pos rfl,
        if_pos hprint, Prog.always_bind, Prog.always_pure, Prog.always_bind,
        always_submitted hcommand, always_say]

/-- The entry of a SET or SETEX sets the key. -/
theorem verb_of_setRequest (h : SetRequest entry key value p) :
    ∃ expireAt, entry.verb = .ok (.set key value expireAt) := by
  cases h with
  | set hargs hlen hcommand =>
      obtain ⟨hword, -⟩ := word_of_wordsUpTo hargs
      refine ⟨none, ?_⟩
      rw [LogEntry.verb, hcommand]
      exact parseVerb_set hword value
  | setex hargs hsecs hlen hprint hcommand =>
      obtain ⟨hword, -⟩ := word_of_wordsUpTo hargs
      rw [LogEntry.verb, hcommand]
      exact ⟨_, parseVerb_setex hword hprint value⟩

theorem wp_any {α : Type} {x : M α} {Q : α → CacheStateMachine → Prop}
    {R : SmError → CacheStateMachine → Prop} {m : CacheStateMachine} (hQ : ∀ a m', Q a m')
    (hR : ∀ e m', R e m') : wp x Q R m := by
  unfold wp
  split
  · exact hQ _ _
  · exact hR _ _

/-- Where the user exists, a SET that runs writes. -/
theorem result_of_set {m : CacheStateMachine} {expireAt : Option Int}
    (hv : entry.verb = .ok (.set key value expireAt)) (hu : UserExists m entry.username)
    (hid : entry.request = some id) (hex : Executes m entry)
    (hr : value? (apply entry) m = some result) : result = .bool true := by
  obtain ⟨store, hstore⟩ := hu
  have hset : wp (applySet entry.username key value expireAt) (fun b _ => b = true)
      (fun _ _ => True) m := by
    have hrest : ∀ m', wp (do
        let store ← store.cacheSet key value
        putStore entry.username (store.setExpiry key expireAt)
        pure true : M Bool) (fun b _ => b = true) (fun _ _ => True) m' := by
      intro m'
      rw [wp_bind]
      refine wp_any (fun _ m'' => ?_) fun _ _ => trivial
      rw [wp_bind]
      exact wp_any (fun _ _ => rfl) fun _ _ => trivial
    unfold applySet
    rw [wp_bind, wp_of_run_ok (run_eq_of_value? hstore), wp_bind, wp_get]
    dsimp only
    split
    · rw [wp_bind]
      exact wp_any (fun _ m' => hrest m') fun _ _ => trivial
    · exact hrest _
  have hcommand : wp (do
      let result ← applyCommand entry
      recordSession entry.requestId result entry.index
      pure result : M Result) (fun r _ => r = .bool true) (fun _ _ => True) m := by
    unfold applyCommand Verb.run
    rw [hv, wp_bind]
    dsimp only
    rw [wp_bind]
    refine wp_mono hset (fun b m' hb => ?_) fun _ _ h => h
    rw [wp_pure, wp_bind, hb]
    exact wp_any (fun _ _ => rfl) fun _ _ => trivial
  have hrun := run_eq_of_value? hr
  rw [apply_executes hid hex] at hrun
  exact (wp_of_run_ok hrun).mp hcommand

/-- A session that is neither behind nor missing keeps a request from running. -/
theorem reached_iff {sessions : Sessions} : Reached sessions id ↔ sessions.answerTo id ≠ none := by
  unfold Reached Sessions.answerTo
  cases sessions.get? id.clientId with
  | none => simp
  | some s =>
      by_cases hlt : s.seq < id.seq
      · simp [hlt]
      · have hle : id.seq ≤ s.seq := by omega
        by_cases heq : id.seq = s.seq <;> simp [hlt, heq, hle]

/-- A request runs exactly if its client has no session at its number or beyond. -/
theorem executes_iff {m : CacheStateMachine} (hid : entry.request = some id) :
    Executes m entry ↔ ¬ Reached m.sessions id := by
  rw [reached_iff, not_not]
  constructor
  · exact fun h => h id hid
  · intro h id' hid'
    rw [hid] at hid'
    exact Option.some.inj hid' ▸ h

theorem Wrote.append {username : String} (h : Wrote m₀ done id username key value)
    (l : List LogEntry) : Wrote m₀ (done ++ l) id username key value := by
  obtain ⟨before, e, rest', t, rfl, h⟩ := h
  exact ⟨before, e, rest' ++ l, t, by simp, h⟩

/-- A write by the last entry or by an earlier one. -/
theorem wrote_snoc {username : String} (h : Wrote m₀ (done ++ [entry]) id username key value) :
    Wrote m₀ done id username key value ∨ Executes (after (applyLog done) m₀) entry := by
  obtain ⟨before, e, rest', t, hsplit, hid, hu, hv, hruns⟩ := h
  rcases List.eq_nil_or_concat rest' with rfl | ⟨rest'', x, rfl⟩
  · obtain ⟨rfl, heq⟩ := List.append_inj' hsplit rfl
    obtain rfl := (List.cons.inj heq).1
    exact Or.inr hruns.executes
  · have hsplit' : done ++ [entry] = (before ++ e :: rest'') ++ [x] := by simpa using hsplit
    obtain ⟨rfl, -⟩ := List.append_inj' hsplit' rfl
    exact Or.inl ⟨before, e, rest'', t, rfl, hid, hu, hv, hruns⟩

/-- In order, a request runs with a result only once, and its session keeps
that result. -/
theorem answer_of_standing (h : InOrder m₀ log) (hm₀ : m₀.sessions = Dict.empty)
    {rs : List Result} {m : CacheStateMachine} (hrun : (applyLog log).run m₀ = .ok rs m)
    (hlog : log = done ++ entry :: rest) (hid : entry.request = some id)
    (hran : Ran m₀ done id result) (hres : result ≠ .none) :
    (after (applyLog done) m₀).sessions.answerTo id = some result := by
  obtain ⟨s, hs, hseq⟩ := h.standing done entry rest hlog id hid result hran hres
  obtain ⟨rs', r, hdone, -⟩ := run_split (hlog ▸ hrun)
  have hlast := session_lastRan hm₀ hdone hs
  have hidc : (⟨id.clientId, s.seq⟩ : RequestId) = id := by rw [hseq]
  rw [hidc] at hlast
  have hsame : s.result = result := by
    obtain ⟨d₁, e₁, r₁, hd₁, hi₁, hruns₁, hnot⟩ := hlast
    obtain ⟨d₂, e₂, r₂, hd₂, hi₂, hruns₂⟩ := hran
    rcases List.append_eq_append_iff.mp (hd₁.symm.trans hd₂) with ⟨mid, rfl, he⟩ | ⟨mid, rfl, he⟩
    · cases mid with
      | nil =>
          obtain ⟨rfl, rfl⟩ := List.cons.inj he
          rw [List.append_nil] at hruns₂
          exact Option.some.inj (hruns₁.result.symm.trans hruns₂.result)
      | cons e mid =>
          -- the last run cannot come before this one
          obtain ⟨rfl, hr₁⟩ := List.cons.inj he
          exact absurd hruns₂.executes (hnot mid e₂ r₂ hr₁ hi₂)
    · cases mid with
      | nil =>
          obtain ⟨rfl, rfl⟩ := List.cons.inj he
          rw [List.append_nil] at hruns₁
          exact Option.some.inj (hruns₁.result.symm.trans hruns₂.result)
      | cons e mid =>
          -- where the last run was, the session already stood at the request
          obtain ⟨rfl, -⟩ := List.cons.inj he
          have hlog' : log = (d₂ ++ e₂ :: mid) ++ e₁ :: (r₁ ++ entry :: rest) := by
            rw [hlog, hd₁]
            simp
          obtain ⟨s', hs', hseq'⟩ := h.standing _ _ _ hlog' id hi₁ result
            ⟨d₂, e₂, mid, rfl, hi₂, hruns₂⟩ hres
          exact absurd ⟨s', hs', hseq'.ge⟩ ((executes_iff hi₁).mp hruns₁.executes)
  unfold Sessions.answerTo
  rw [hs]
  simp [hseq, hsame]

/-- In order, OK means applied. -/
theorem applied_of_inOrder (hm₀ : m₀.sessions = Dict.empty) {rs : List Result}
    {m : CacheStateMachine} (hrun : (applyLog log).run m₀ = .ok rs m) (h : InOrder m₀ log) :
    OkMeansApplied m₀ log where
  written done entry rest hlog id hid key value p hp hu result hr := by
    rw [always_ok hp]
    by_cases hreached : Reached (after (applyLog done) m₀).sessions id
    · exact (h.written done entry rest hlog id hid key value p hp hu hreached).append _
    · obtain ⟨expireAt, hv⟩ := verb_of_setRequest hp
      have hex := (executes_iff hid).mpr hreached
      have htrue := result_of_set hv hu hid hex hr
      exact ⟨done, entry, [], expireAt, rfl, hid, rfl, hv, hex, htrue ▸ hr⟩
  original done entry rest hlog id hid result hran hres := by
    have ha := answer_of_standing h hm₀ hrun hlog hid hran hres
    refine ⟨fun hex => ?_, value?_of_run (apply_answered hid ha)⟩
    rw [hex id hid] at ha
    cases ha

/-- Where OK means applied, requests came in order. -/
theorem inOrder_of_applied {rs : List Result} {m : CacheStateMachine}
    (hrun : (applyLog log).run m₀ = .ok rs m) (h : OkMeansApplied m₀ log) : InOrder m₀ log where
  written done entry rest hlog id hid key value p hp hu hreached := by
    obtain ⟨-, r, -, hr⟩ := run_split (hlog ▸ hrun)
    have hw := (always_ok hp _).mp
      (h.written done entry rest hlog id hid key value p hp hu r (value?_of_run hr))
    rcases wrote_snoc hw with hw | hex
    · exact hw
    · exact absurd hreached ((executes_iff hid).mp hex)
  standing done entry rest hlog id hid result hran hres := by
    obtain ⟨hex, hr⟩ := h.original done entry rest hlog id hid result hran hres
    rw [executes_iff hid, not_not, reached_iff] at hex
    obtain ⟨a, ha⟩ := Option.ne_none_iff_exists'.mp hex
    rw [value?_of_run (apply_answered hid ha)] at hr
    obtain rfl := Option.some.inj hr
    unfold Sessions.answerTo at ha
    cases hs : (after (applyLog done) m₀).sessions.get? id.clientId with
    | none =>
        rw [hs] at ha
        cases ha
    | some s =>
        rw [hs] at ha
        dsimp only at ha
        split at ha
        · cases ha
        · split at ha
          · next heq => exact ⟨s, rfl, heq.symm⟩
          · exact absurd (Option.some.inj ha).symm hres

end Told

/-- Over every log, OK means applied exactly if requests come in order. -/
theorem ok_means_applied_iff {m₀ : CacheStateMachine} (hm₀ : m₀.sessions = Dict.empty)
    {log : List LogEntry} {rs : List Result} {m : CacheStateMachine}
    (hrun : (applyLog log).run m₀ = .ok rs m) : OkMeansApplied m₀ log ↔ InOrder m₀ log :=
  ⟨inOrder_of_applied hrun, applied_of_inOrder hm₀ hrun⟩

/-- A user signs up, and a client of theirs sends a SET, sends it again and
goes on to the next. -/
def signsUp : LogEntry := ⟨1, 1, .write "SIGNUP h", "zoe", ""⟩

def earlierSet (index : Nat) : LogEntry := ⟨1, index, .write "SET a x", "zoe", "c1:5"⟩

def nextSet : LogEntry := ⟨1, 4, .write "SET k v", "zoe", "c1:6"⟩

def retriedSets : List LogEntry := [signsUp, earlierSet 2, earlierSet 3, nextSet]

theorem facts_retriedSets :
    (value? (applyLog retriedSets) ramMachine = some [.bool true, .bool true, .bool true, .bool true] ∧
      signsUp.request = none ∧ nextSet.request = some ⟨"c1", 6⟩) ∧
    (after (applyLog [signsUp]) ramMachine).sessions.answerTo ⟨"c1", 5⟩ = none ∧
    value? (apply (earlierSet 2)) (after (applyLog [signsUp]) ramMachine) = some (.bool true) ∧
    ((after (applyLog [signsUp, earlierSet 2]) ramMachine).sessions.get? "c1").map (·.seq) = some 5 ∧
    (after (applyLog [signsUp, earlierSet 2, earlierSet 3]) ramMachine).sessions.answerTo ⟨"c1", 6⟩
      = none := by
  decide +kernel

theorem request_earlierSet (index : Nat) : (earlierSet index).request = some ⟨"c1", 5⟩ := by
  have h : (earlierSet 0).request = some ⟨"c1", 5⟩ := by decide
  exact h

/-- The client waits for each answer, so its requests come in order. -/
theorem inOrder_retriedSets : InOrder ramMachine retriedSets := by
  obtain ⟨⟨-, hsign, hnext⟩, hfresh, htrue, hseq, hfresh'⟩ := facts_retriedSets
  -- where an entry of a client stands in the log
  have hwhere : ∀ done entry rest, retriedSets = done ++ entry :: rest → ∀ id,
      entry.request = some id →
      done = [signsUp] ∧ id = ⟨"c1", 5⟩ ∨
      done = [signsUp, earlierSet 2] ∧ entry = earlierSet 3 ∧ id = ⟨"c1", 5⟩ ∨
      done = [signsUp, earlierSet 2, earlierSet 3] ∧ id = ⟨"c1", 6⟩ := by
    intro done entry rest hsplit id hid
    unfold retriedSets at hsplit
    rcases done with _ | ⟨e₁, _ | ⟨e₂, _ | ⟨e₃, _ | ⟨e₄, done⟩⟩⟩⟩
    · cases hsplit
      rw [hsign] at hid
      cases hid
    · cases hsplit
      rw [request_earlierSet] at hid
      exact Or.inl ⟨rfl, (Option.some.inj hid).symm⟩
    · cases hsplit
      rw [request_earlierSet] at hid
      exact Or.inr (Or.inl ⟨rfl, rfl, (Option.some.inj hid).symm⟩)
    · cases hsplit
      rw [hnext] at hid
      exact Or.inr (Or.inr ⟨rfl, (Option.some.inj hid).symm⟩)
    · have := congrArg List.length hsplit
      simp only [List.length_append, List.length_cons, List.length_nil] at this
      omega
  refine ⟨fun done entry rest hsplit id hid key value p hset _ hreached => ?_,
    fun done entry rest hsplit id hid result hran _ => ?_⟩
  · have hnew := reached_iff.mp hreached
    rcases hwhere done entry rest hsplit id hid with ⟨rfl, rfl⟩ | ⟨rfl, rfl, rfl⟩ | ⟨rfl, rfl⟩
    · exact absurd hfresh hnew
    · obtain ⟨t, hverb⟩ := verb_of_setRequest hset
      refine ⟨[signsUp], earlierSet 2, [], t, rfl, request_earlierSet 2, rfl, hverb, ?_, htrue⟩
      intro id hid
      rw [request_earlierSet] at hid
      exact Option.some.inj hid ▸ hfresh
    · exact absurd hfresh' hnew
  · -- who has run before is the client that is sent the same again
    obtain ⟨before, ran, after', hdone, hran, -⟩ := hran
    rcases hwhere done entry rest hsplit id hid with ⟨rfl, rfl⟩ | ⟨rfl, -, rfl⟩ | ⟨rfl, rfl⟩
    · have hin : ran ∈ [signsUp] := hdone ▸ by simp
      rw [List.mem_singleton.mp hin, hsign] at hran
      cases hran
    · obtain ⟨s, hs, hseq⟩ := Option.map_eq_some_iff.mp hseq
      exact ⟨s, hs, hseq⟩
    · have hin : ran ∈ [signsUp, earlierSet 2, earlierSet 3] := hdone ▸ by simp
      simp only [List.mem_cons, List.not_mem_nil, or_false] at hin
      rcases hin with rfl | rfl | rfl
      · rw [hsign] at hran
        cases hran
      all_goals
        rw [request_earlierSet] at hran
        cases hran

theorem ok_means_applied_iff_retried :
    InOrder ramMachine retriedSets ∧ OkMeansApplied ramMachine retriedSets :=
  ⟨inOrder_retriedSets, (ok_means_applied_iff rfl
    (run_eq_of_value? facts_retriedSets.1.1)).mpr inOrder_retriedSets⟩

/-- A SET that comes late. -/
def lateSet : LogEntry := ⟨1, 3, .write "SET k v", "zoe", "c1:3"⟩

/-- Two SETs of one client, the second one first. -/
def swappedSets : List LogEntry :=
  [⟨1, 1, .write "SIGNUP h", "zoe", ""⟩, ⟨1, 2, .write "SET a x", "zoe", "c1:5"⟩, lateSet]

theorem run_swappedSets : (applyLog swappedSets).run ramMachine
    = .ok [.bool true, .bool true, .none] (after (applyLog swappedSets) ramMachine) :=
  run_eq_of_value? (by decide +kernel)

/-- The late SET is answered OK and never applied. -/
theorem late_set_is_told_ok :
    ¬ ∀ (m₀ : CacheStateMachine) (log : List LogEntry) (rs : List Result) (m : CacheStateMachine),
      m₀.sessions = Dict.empty → (applyLog log).run m₀ = .ok rs m → OkMeansApplied m₀ log := by
  intro h
  have hok := h ramMachine swappedSets _ _ rfl run_swappedSets
  have hargs : splitUpTo 1 "k v" = ["k", "v"] := by decide +kernel
  have hset : SetRequest lateSet "k" "v" (TCPServer.cmdSet somebody "zoe" "k v" (some "c1:3")) :=
    .set hargs (by decide +kernel) rfl
  have hid : lateSet.request = some ⟨"c1", 3⟩ := by decide +kernel
  have hanswer : (after (applyLog (swappedSets.take 2)) ramMachine).sessions.answerTo ⟨"c1", 3⟩
      = some .none := by decide +kernel
  have huser : UserExists (after (applyLog (swappedSets.take 2)) ramMachine) "zoe" := by
    have hsome : ((value? (getStore "zoe") (after (applyLog (swappedSets.take 2)) ramMachine)).join
        ).isSome = true := by decide +kernel
    obtain ⟨store, hstore⟩ := Option.isSome_iff_exists.mp hsome
    exact ⟨store, Option.join_eq_some_iff.mp hstore⟩
  have hw := (always_ok hset _).mp (hok.written (swappedSets.take 2) lateSet [] rfl _ hid "k" "v" _
    hset huser .none (value?_of_run (apply_answered hid hanswer)))
  rcases wrote_snoc hw with ⟨done, entry, rest, t, hsplit, hid', -⟩ | hex
  · have hnone : ∀ e ∈ swappedSets.take 2, e.request ≠ some ⟨"c1", 3⟩ := by decide +kernel
    exact hnone entry (hsplit ▸ by simp) hid'
  · have hnone := hex _ hid
    rw [hanswer] at hnone
    cases hnone

end KvCache
