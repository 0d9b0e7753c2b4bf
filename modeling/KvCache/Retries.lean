import KvCache.FaultyCalls

/-!
# Retried applies

The engine repeats an apply until it returns. Failing calls on users and
entries do no harm: the command starts over from what the failed attempt
left and ends as if it had been the first (`command_settles`). A failing
call on the session table does: the table in RAM has the answer by then, so
the next attempt returns it and the row is never written
(`retried_apply_is_atomic_iff`).
-/

namespace KvCache

open StateWp

/-- `_apply_with_retry` for so many attempts; none if the engine stops
before one returns. -/
def applyWithRetry (entry : LogEntry) : Nat → M (Option Result)
  | 0 => pure none
  | attempts + 1 =>
    match entry.command with
    | .write _ =>
      tryCatch (do
        let result ← apply entry
        pure (some result))
        fun _ => applyWithRetry entry attempts
    | _ => pure (some .none)

/-- A new session would be one too many. -/
def Sessions.Overflows (sessions : Sessions) (id : RequestId) : Prop :=
  maxSessions < if sessions.contains id.clientId then sessions.size else sessions.size + 1

/-- The calls on the session table that a first attempt makes, once the
command has run, succeed: saving the session, and deleting one if there are
too many. -/
def SessionCallsReturn (m : CacheStateMachine) (entry : LogEntry) : Prop :=
  ∀ text id, entry.command = .write text → entry.request = some id →
    m.sessions.answerTo id = none →
    m.sessionFaults.headD false = false ∧
      (m.sessions.Overflows id → m.sessionFaults.tail.headD false = false)

section Attempts

variable {m : CacheStateMachine} {entry : LogEntry}

theorem run_retry_succ {text : String} (hw : entry.command = .write text) (n : Nat) :
    (applyWithRetry entry (n + 1)).run m = match (apply entry).run m with
      | .ok r m' => .ok (some r) m'
      | .error _ m' => (applyWithRetry entry n).run m' := by
  rw [applyWithRetry, hw]
  dsimp only
  rw [run_tryCatch, EStateM.run_bind]
  cases (apply entry).run m with
  | ok r m' => rfl
  | error e m' => rfl

/-- Once an attempt returns, more attempts change nothing. -/
theorem run_retry_add {n : Nat} {r : Result} {m' : CacheStateMachine}
    (h : (applyWithRetry entry n).run m = .ok (some r) m') (k : Nat) :
    (applyWithRetry entry (n + k)).run m = .ok (some r) m' := by
  induction n generalizing m with
  | zero => cases h
  | succ n ih =>
      cases hw : entry.command with
      | write text =>
          rw [Nat.add_right_comm, run_retry_succ hw]
          rw [run_retry_succ hw] at h
          cases ha : (apply entry).run m with
          | ok r₁ m₁ =>
              rw [ha] at h
              exact h
          | error e m₁ =>
              rw [ha] at h
              exact ih h
      | _ =>
          rw [Nat.add_right_comm, applyWithRetry, hw]
          rw [applyWithRetry, hw] at h
          exact h

theorem run_retry_unique {n n' : Nat} {r r' : Result} {m₁ m₂ : CacheStateMachine}
    (h : (applyWithRetry entry n).run m = .ok (some r) m₁)
    (h' : (applyWithRetry entry n').run m = .ok (some r') m₂) : r = r' ∧ m₁ = m₂ := by
  have h₁ := run_retry_add h n'
  have h₂ := run_retry_add h' n
  rw [Nat.add_comm, h₂] at h₁
  cases h₁
  exact ⟨rfl, rfl⟩

/-- What follows the command in an apply. -/
def finish (entry : LogEntry) (result : Result) : M Result :=
  if entry.requestId = "" then pure result
  else do
    recordSession entry.requestId result entry.index
    pure result

/-- An apply that reaches its command. -/
theorem run_apply_reaches (h : Reaches m.sessions entry) :
    (apply entry).run m = (applyCommand entry >>= finish entry).run m := by
  rcases h with h | ⟨id, hid, ha⟩
  · unfold apply finish
    rw [if_pos h]
    simp only [h, if_true]
    rw [bind_pure]
  · have hex : Executes m entry := by
      intro id' hid'
      rw [hid] at hid'
      exact Option.some.inj hid' ▸ ha
    rw [apply_executes hid hex]
    have hne : entry.requestId ≠ "" := by
      intro he
      rw [LogEntry.request, if_pos he] at hid
      cases hid
    unfold finish
    simp only [hne, if_false]

/-- However many attempts a failing call stops, the command then ends as it
would have ended at first. -/
theorem command_settles {text : String} (hw : entry.command = .write text)
    (hc : Coherent m.quiet) (hr : Reaches m.sessions entry) {r : Result} {c : CacheStateMachine}
    (hcmd : (applyCommand entry).run m.quiet = .ok r c) :
    ∃ k m₁, m₁.quiet = c ∧ Still m m₁ ∧
      ∀ n, (applyWithRetry entry (n + 1 + k)).run m = match (finish entry r).run m₁ with
        | .ok r m₂ => .ok (some r) m₂
        | .error _ m₂ => (applyWithRetry entry n).run m₂ := by
  induction hlen : m.faults.length using Nat.strong_induction_on generalizing m with
  | _ len ih =>
      have hq := quietly_applyCommand entry m
      have ha := command_again hc entry
      have hs := still_applyCommand entry m (Still.refl m)
      have happ := run_apply_reaches hr
      rw [EStateM.run_bind] at happ
      unfold wp at hq hs
      unfold Again wp at ha
      cases hrun : (applyCommand entry).run m with
      | ok r₁ m₁ =>
          rw [hrun] at hq hs happ
          rw [hcmd] at hq
          cases hq.1
          refine ⟨0, m₁, rfl, hs, ?_⟩
          intro n
          rw [Nat.add_zero, run_retry_succ hw, happ]
      | error e m₁ =>
          rw [hrun] at hq ha hs happ
          rcases hq with ⟨rfl, hlt⟩ | hq
          · obtain ⟨hc₁, hagain⟩ := ha rfl
            have hr₁ : Reaches m₁.sessions entry := by
              rw [hs.sessions]
              exact hr
            obtain ⟨k, m₂, hm₂, hst, hall⟩ := ih m₁.faults.length (hlen ▸ hlt) hc₁ hr₁
              (hagain.trans hcmd) rfl
            refine ⟨k + 1, m₂, hm₂, hs.trans hst, ?_⟩
            intro n
            rw [← Nat.add_assoc, run_retry_succ hw, happ]
            exact hall n
          · rw [hcmd] at hq
            cases hq

/-! ## The session table -/

theorem parse_of_request {id : RequestId} (h : entry.request = some id) :
    entry.requestId ≠ "" ∧ parseRequestId entry.requestId = .ok id := by
  unfold LogEntry.request at h
  split at h
  · cases h
  · next hne =>
      refine ⟨hne, ?_⟩
      cases hp : parseRequestId entry.requestId with
      | error e => simp [hp, Except.toOption] at h
      | ok id' => simpa [hp, Except.toOption] using h

variable {id : RequestId} {result : Result} {index : Nat}

theorem size_set_session (sessions : Sessions) (s : Session) :
    Dict.size (sessions.set id.clientId s)
      = if sessions.contains id.clientId then sessions.size else sessions.size + 1 := by
  cases hg : sessions.get? id.clientId with
  | some t =>
      have hc : sessions.contains id.clientId = true := by simp [Dict.contains, hg]
      rw [if_pos hc, Dict.size_set_of_contains hc]
  | none =>
      have hc : ¬ sessions.contains id.clientId = true := by simp [Dict.contains, hg]
      rw [if_neg hc, Dict.set_of_get?_none hg, Dict.size_putLast_of_get? hg]

/-- A table that does not overflow evicts nobody. -/
theorem evictedBy_eq_none {sessions : Sessions} (h : ¬ sessions.Overflows id) :
    sessions.evictedBy id result index = none := by
  unfold Sessions.evictedBy Sessions.toEvict
  rw [size_set_session]
  exact if_neg h

/-- A table that overflows has more clients than one. -/
theorem exists_other_session {sessions : Sessions} (h : maxSessions < sessions.size) (c : String) :
    ∃ q ∈ sessions.items, q.1 ≠ c := by
  by_contra hall
  simp only [not_exists, not_and, not_not] at hall
  have hn := sessions.nodup
  have hlen : maxSessions < sessions.items.length := h
  match hi : sessions.items with
  | [] =>
      rw [hi] at hlen
      cases hlen
  | [p] =>
      rw [hi] at hlen
      simp [maxSessions] at hlen
  | p :: p' :: l =>
      rw [hi] at hn hall
      have hp := hall p (by simp)
      have hp' := hall p' (by simp)
      simp [hp, hp'] at hn

/-- One that does evicts somebody else, if the log is applied in order. -/
theorem evictedBy_eq_some (result : Result) {sessions : Sessions} (h : sessions.Overflows id)
    (ho : ∀ c s, sessions.get? c = some s → s.index < index) :
    ∃ c, sessions.evictedBy id result index = some c ∧ c ≠ id.clientId := by
  have hsize : maxSessions < Dict.size (sessions.set id.clientId ⟨id.seq, result, index⟩) := by
    rw [size_set_session]
    exact h
  have hev : sessions.evictedBy id result index
      = Sessions.oldest (sessions.set id.clientId ⟨id.seq, result, index⟩) := by
    unfold Sessions.evictedBy Sessions.toEvict
    rw [if_pos hsize]
  rw [hev]
  unfold Sessions.oldest
  generalize hd : Dict.set sessions id.clientId ⟨id.seq, result, index⟩ = d at hsize
  obtain ⟨q, hq, hne⟩ := exists_other_session hsize id.clientId
  cases hmin : d.items.argmin fun p => p.2.index with
  | none =>
      rw [List.argmin_eq_none] at hmin
      rw [hmin] at hq
      cases hq
  | some p =>
      refine ⟨p.1, rfl, ?_⟩
      intro hp
      have hle := List.le_of_mem_argmin hq hmin
      have hget : d.get? p.1 = some p.2 := Dict.get?_eq_some.mpr (List.argmin_mem hmin)
      have hgetq : d.get? q.1 = some q.2 := Dict.get?_eq_some.mpr hq
      rw [← hd, Dict.get?_set, if_pos hp] at hget
      rw [← hd, Dict.get?_set, if_neg hne] at hgetq
      have hlt := ho _ _ hgetq
      rw [← Option.some.inj hget] at hle
      simp only at hle
      omega

/-- The table answers a request it has just recorded. -/
theorem answerTo_record {sessions : Sessions}
    (h : ∀ c, sessions.evictedBy id result index = some c → c ≠ id.clientId) :
    (sessions.record id result index).get? id.clientId = some ⟨id.seq, result, index⟩ := by
  unfold Sessions.record
  dsimp only
  rw [show Sessions.toEvict _ = sessions.evictedBy id result index from rfl]
  cases he : sessions.evictedBy id result index with
  | none => simp [Sessions.without]
  | some c =>
      have hne := h c he
      unfold Sessions.without
      rw [Dict.get?_erase, if_neg hne.symm, Dict.get?_set, if_pos rfl]

/-- Recording an answer when the calls it makes succeed. -/
theorem wp_recordSession_returns {requestId : String} (hm : m.useDb = true)
    (hid : parseRequestId requestId = .ok id) (h₁ : m.sessionFaults.headD false = false)
    (h₂ : m.sessions.Overflows id → m.sessionFaults.tail.headD false = false) :
    wp (recordSession requestId result index)
      (fun _ m' => m'.quiet = { m.quiet with
        sessions := m.sessions.record id result index
        db := { m.db with
          sessions := recordRows m.db.sessions id result index
            (m.sessions.evictedBy id result index) } })
      (fun _ _ => False) m := by
  rw [wp_recordSession hm hid]
  dsimp only
  rw [if_neg (by rw [h₁]; exact Bool.false_ne_true)]
  unfold recordRows
  cases he : m.sessions.evictedBy id result index with
  | none => rfl
  | some c =>
      have hover : m.sessions.Overflows id := by
        by_contra hn
        rw [evictedBy_eq_none hn] at he
        cases he
      dsimp only
      by_cases hc : c = ""
      · rw [if_neg (by simp [hc]), if_neg (by simp [hc])]
        rfl
      · rw [if_pos hc, if_pos hc, if_neg (by rw [h₂ hover]; exact Bool.false_ne_true)]
        rfl

/-! ## Atomic retries -/

/-- However the calls fail, the retries return what the apply returns in
which no call fails, they leave the machine and the tables as that apply
does, and the session table in RAM is the one in the database. -/
def RetriesTo (entry : LogEntry) (m : CacheStateMachine) (r₀ : Result) (m₀ : CacheStateMachine) :
    Prop :=
  (∃ n r m', (applyWithRetry entry n).run m = .ok (some r) m') ∧
    ∀ n r m', (applyWithRetry entry n).run m = .ok (some r) m' →
      r = r₀ ∧ m'.quiet = m₀.quiet ∧ Mirrored m'

theorem retriesTo_of_run {n : Nat} {r₀ : Result} {m₀ m' : CacheStateMachine}
    (h : (applyWithRetry entry n).run m = .ok (some r₀) m') (hq : m'.quiet = m₀.quiet)
    (hm : Mirrored m') : RetriesTo entry m r₀ m₀ := by
  refine ⟨⟨n, r₀, m', h⟩, ?_⟩
  intro n' r m₁ h'
  obtain ⟨rfl, rfl⟩ := run_retry_unique h h'
  exact ⟨rfl, hq, hm⟩

/-- What the failed first call on the session table leaves: the answer is in
RAM, and its row is not in the database. -/
theorem not_mirrored_unsaved {m₁ : CacheStateMachine} (hm : Mirrored m)
    (ha : m.sessions.answerTo id = none)
    (hs : m₁.sessions.get? id.clientId = some ⟨id.seq, result, index⟩)
    (hd : m₁.db.sessions = m.db.sessions) : ¬ Mirrored m₁ := by
  intro h
  rcases h.rows.get?_cases id.clientId with ⟨hn, -⟩ | ⟨s, row, hs', hrow, heq⟩
  · rw [hs] at hn
    cases hn
  · rw [hs] at hs'
    obtain rfl := Option.some.inj hs'
    rw [hd] at hrow
    rcases hm.rows.get?_cases id.clientId with ⟨-, hn⟩ | ⟨s, row', hold, hrow', heq'⟩
    · rw [hrow] at hn
      cases hn
    · rw [hrow] at hrow'
      obtain rfl := Option.some.inj hrow'
      have hseq : id.seq = s.seq := congrArg SessionRow.lastSeq (heq.symm.trans heq')
      unfold Sessions.answerTo at ha
      rw [hold] at ha
      simp [hseq] at ha

/-- What the failed second call leaves: the evicted session has its row. -/
theorem not_mirrored_undeleted {m₁ : CacheStateMachine} (hm : Mirrored m) {c : String}
    (he : m.sessions.evictedBy id result index = some c) (hne : c ≠ id.clientId)
    (hs : m₁.sessions = m.sessions.record id result index)
    (hd : m₁.db.sessions = m.db.sessions.set id.clientId ⟨id.seq, result.dumps, index⟩) :
    ¬ Mirrored m₁ := by
  intro h
  obtain ⟨s, hget⟩ := evictedBy_mem he
  rw [Dict.get?_set, if_neg hne] at hget
  have hgone : m₁.sessions.get? c = none := by
    rw [hs]
    unfold Sessions.record
    dsimp only
    rw [show Sessions.toEvict _ = m.sessions.evictedBy id result index from rfl, he]
    simp [Sessions.without]
  rcases h.rows.get?_cases c with ⟨-, hn⟩ | ⟨s', -, hs', -⟩
  · rw [hd, Dict.get?_set, if_neg hne] at hn
    rcases hm.rows.get?_cases c with ⟨hn', -⟩ | ⟨-, row, -, hrow, -⟩
    · rw [hget] at hn'
      cases hn'
    · rw [hrow] at hn
      cases hn
  · rw [hgone] at hs'
    cases hs'

/-- Where the calls on the session table succeed, the answer is recorded. -/
theorem finish_returns (result : Result) (hm : m.useDb = true) (hid : entry.request = some id)
    (h₁ : m.sessionFaults.headD false = false)
    (h₂ : m.sessions.Overflows id → m.sessionFaults.tail.headD false = false) :
    wp (finish entry result)
      (fun r m' => r = result ∧ m'.quiet = { m.quiet with
        sessions := m.sessions.record id result entry.index
        db := { m.db with
          sessions := recordRows m.db.sessions id result entry.index
            (m.sessions.evictedBy id result entry.index) } })
      (fun _ _ => False) m := by
  obtain ⟨hne, hp⟩ := parse_of_request hid
  unfold finish
  rw [if_neg hne, wp_bind]
  refine wp_mono (wp_recordSession_returns hm hp h₁ h₂) ?_ (fun _ _ h => h)
  intro _ m' h
  exact ⟨rfl, h⟩

/-- Where one of them fails, the machine is left with the answer in RAM and
tables that do not show it. -/
theorem finish_raises (result : Result) (hu : m.useDb = true) (hm : Mirrored m) (hid : entry.request = some id)
    (hn : id.clientId ≠ "") (ha : m.sessions.answerTo id = none)
    (ho : ∀ c s, m.sessions.get? c = some s → s.index < entry.index)
    (hf : m.sessionFaults.headD false = true ∨
      (m.sessions.Overflows id ∧ m.sessionFaults.tail.headD false = true)) :
    wp (finish entry result) (fun _ _ => False)
      (fun _ m' => m'.sessions.answerTo id = some result ∧ ¬ Mirrored m') m := by
  obtain ⟨hne, hp⟩ := parse_of_request hid
  have hself : ∀ c, m.sessions.evictedBy id result entry.index = some c → c ≠ id.clientId := by
    intro c hc
    by_cases hover : m.sessions.Overflows id
    · obtain ⟨c', hc', hne'⟩ := evictedBy_eq_some result hover ho
      rw [hc] at hc'
      exact Option.some.inj hc' ▸ hne'
    · rw [evictedBy_eq_none hover] at hc
      cases hc
  have hget := answerTo_record hself
  have hanswer : (m.sessions.record id result entry.index).answerTo id = some result := by
    unfold Sessions.answerTo
    rw [hget]
    simp
  unfold finish
  rw [if_neg hne, wp_bind, wp_recordSession hu hp]
  dsimp only
  split
  · exact ⟨hanswer, not_mirrored_unsaved hm ha hget rfl⟩
  · next hhead =>
      obtain ⟨hover, hsecond⟩ := hf.resolve_left hhead
      obtain ⟨c, hc, hne'⟩ := evictedBy_eq_some result hover ho
      rw [hc]
      dsimp only
      rw [if_pos (hm.evictedBy_ne hn hc), if_pos hsecond]
      exact ⟨hanswer, not_mirrored_undeleted hm hc hne' rfl rfl⟩

/-- The two stages of an apply that reaches its command and returns. -/
theorem stages_of_returns {r₀ : Result} {m₀ : CacheStateMachine} (hr : Reaches m.sessions entry)
    (h : (apply entry).run m.quiet = .ok r₀ m₀) :
    ∃ r c, (applyCommand entry).run m.quiet = .ok r c ∧ (finish entry r).run c = .ok r₀ m₀ := by
  rw [run_apply_reaches (m := m.quiet) hr, EStateM.run_bind] at h
  cases hcmd : (applyCommand entry).run m.quiet with
  | error e c =>
      rw [hcmd] at h
      cases h
  | ok r c =>
      rw [hcmd] at h
      exact ⟨r, c, rfl, h⟩

theorem Mirrored.of_still {m₁ : CacheStateMachine} (hm : Mirrored m) (hs : Still m m₁) :
    Mirrored m₁ :=
  hm.of_rows hs.rows hs.sessions

/-- A retried request that had to run, recorded or not. -/
theorem retriesTo_request_iff {text : String} (hw : entry.command = .write text)
    (hc : Coherent m.quiet) (hm : Mirrored m) (hid : entry.request = some id)
    (hn : id.clientId ≠ "") (ha : m.sessions.answerTo id = none) {r₀ : Result}
    {m₀ : CacheStateMachine} (h₀ : (apply entry).run m.quiet = .ok r₀ m₀) :
    (m.sessionFaults.headD false = false ∧
      (m.sessions.Overflows id → m.sessionFaults.tail.headD false = false) →
      RetriesTo entry m r₀ m₀) ∧
    ((∀ c s, m.sessions.get? c = some s → s.index < entry.index) → RetriesTo entry m r₀ m₀ →
      m.sessionFaults.headD false = false ∧
        (m.sessions.Overflows id → m.sessionFaults.tail.headD false = false)) := by
  have hr : Reaches m.sessions entry := Or.inr ⟨id, hid, ha⟩
  obtain ⟨r, c, hcmd, hfin⟩ := stages_of_returns hr h₀
  obtain ⟨k, m₁, rfl, hst, hall⟩ := command_settles hw hc hr hcmd
  have hu : m₁.useDb = true := hst.useDb.trans hc.useDb
  have hm₁ := hm.of_still hst
  constructor
  · rintro ⟨h₁, h₂⟩
    have hquiet := finish_returns (m := m₁.quiet) r hu hid rfl (fun _ => rfl)
    rw [wp_of_run_ok hfin] at hquiet
    obtain ⟨rfl, hm₀⟩ := hquiet
    have hfinal := finish_returns (m := m₁) r₀ hu hid
      (by rw [hst.sessionFaults]; exact h₁)
      (by rw [hst.sessionFaults, hst.sessions]; exact h₂)
    unfold wp at hfinal
    cases hrun : (finish entry r₀).run m₁ with
    | error e m₂ =>
        rw [hrun] at hfinal
        exact hfinal.elim
    | ok r m₂ =>
        rw [hrun] at hfinal
        obtain ⟨rfl, hm₂⟩ := hfinal
        have hret := hall 0
        rw [hrun] at hret
        refine retriesTo_of_run hret (hm₂.trans hm₀.symm) ?_
        have hrec := hm₁.record hn r entry.index
        have hs₂ : m₂.sessions = m₂.quiet.sessions := rfl
        have hd₂ : m₂.db = m₂.quiet.db := rfl
        refine ⟨?_, ?_⟩
        · rw [hs₂, hd₂, hm₂]
          exact hrec.rows
        · rw [hs₂, hm₂]
          exact hrec.named
  · intro ho hto
    by_contra hnot
    have hf : m₁.sessionFaults.headD false = true ∨
        (m₁.sessions.Overflows id ∧ m₁.sessionFaults.tail.headD false = true) := by
      rw [hst.sessionFaults, hst.sessions]
      by_contra hneither
      obtain ⟨h₁, h₂⟩ := not_or.mp hneither
      refine hnot ⟨Bool.eq_false_iff.mpr h₁, ?_⟩
      intro hover
      exact Bool.eq_false_iff.mpr fun h => h₂ ⟨hover, h⟩
    have hraise := finish_raises (m := m₁) r hu hm₁ hid hn
      (by rw [hst.sessions]; exact ha) (by rw [hst.sessions]; exact ho) hf
    unfold wp at hraise
    cases hrun : (finish entry r).run m₁ with
    | ok r' m₂ =>
        rw [hrun] at hraise
        exact hraise.elim
    | error e m₂ =>
        rw [hrun] at hraise
        obtain ⟨hans, hbad⟩ := hraise
        -- the next attempt finds the answer in RAM
        have hnext : (applyWithRetry entry 1).run m₂ = .ok (some r) m₂ := by
          rw [run_retry_succ hw, apply_answered hid hans]
        have hret := hall 1
        rw [hrun] at hret
        dsimp only at hret
        rw [hnext] at hret
        exact hbad (hto.2 _ _ _ hret).2.2

/-- A write that is tried again, recorded or not. -/
theorem retriesTo_write_iff {text : String} (hw : entry.command = .write text)
    (hc : Coherent m.quiet) (hm : Mirrored m) (hn : entry.Named) {r₀ : Result}
    {m₀ : CacheStateMachine} (happly : (apply entry).run m.quiet = .ok r₀ m₀) :
    (SessionCallsReturn m entry → RetriesTo entry m r₀ m₀) ∧
    ((∀ c s, m.sessions.get? c = some s → s.index < entry.index) → RetriesTo entry m r₀ m₀ →
      SessionCallsReturn m entry) := by
  by_cases hempty : entry.requestId = ""
  · have hr : Reaches m.sessions entry := Or.inl hempty
    have hnone : entry.request = none := if_pos hempty
    obtain ⟨r, c, hcmd, hfin⟩ := stages_of_returns hr happly
    obtain ⟨k, m₁, rfl, hst, hall⟩ := command_settles hw hc hr hcmd
    have hpure : ∀ m', (finish entry r).run m' = .ok r m' := by
      intro m'
      unfold finish
      rw [if_pos hempty]
      rfl
    rw [hpure] at hfin
    cases hfin
    have hret := hall 0
    rw [hpure] at hret
    refine ⟨fun _ => retriesTo_of_run hret rfl (hm.of_still hst), ?_⟩
    intro _ _ _ id _ hid
    rw [hnone] at hid
    cases hid
  · cases hid : entry.request with
    | none =>
        -- a request id that does not parse raises every time
        exfalso
        unfold LogEntry.request at hid
        rw [if_neg hempty] at hid
        unfold apply checkSession at happly
        rw [if_neg hempty] at happly
        cases hp : parseRequestId entry.requestId with
        | ok id => simp [hp, Except.toOption] at hid
        | error e =>
            rw [hp] at happly
            cases happly
    | some id =>
        cases ha : m.sessions.answerTo id with
        | some a =>
            have hrun : ∀ m' : CacheStateMachine, m'.sessions = m.sessions →
                (apply entry).run m' = .ok a m' := by
              intro m' hs
              exact apply_answered hid (hs ▸ ha)
            rw [hrun m.quiet rfl] at happly
            cases happly
            have hret : (applyWithRetry entry 1).run m = .ok (some r₀) m := by
              rw [run_retry_succ hw, hrun m rfl]
            refine ⟨fun _ => retriesTo_of_run hret rfl hm, ?_⟩
            intro _ _ _ id' _ hid' ha'
            rw [hid] at hid'
            rw [← Option.some.inj hid', ha] at ha'
            cases ha'
        | none =>
            obtain ⟨hto, hof⟩ := retriesTo_request_iff hw hc hm hid (hn id hid) ha happly
            constructor
            · intro h
              exact hto (h text id hw hid ha)
            · intro ho h text' id' _ hid' _
              rw [hid] at hid'
              exact Option.some.inj hid' ▸ hof ho h

/-- Retried applies are atomic where the calls on the session table succeed
(`SessionCallsReturn`), whatever other calls fail; and where entries are
applied in the order of the log, only there. -/
theorem retried_apply_is_atomic_iff (hc : Coherent m.quiet) (hm : Mirrored m)
    (hn : entry.Named) {r₀ : Result} {m₀ : CacheStateMachine}
    (h₀ : (applyWithRetry entry 1).run m.quiet = .ok (some r₀) m₀) :
    (SessionCallsReturn m entry → RetriesTo entry m r₀ m₀) ∧
    ((∀ c s, m.sessions.get? c = some s → s.index < entry.index) → RetriesTo entry m r₀ m₀ →
      SessionCallsReturn m entry) := by
  cases hw : entry.command with
  | write text =>
      rw [run_retry_succ hw] at h₀
      have happly : (apply entry).run m.quiet = .ok r₀ m₀ := by
        cases ha : (apply entry).run m.quiet with
        | ok r m₁ =>
            rw [ha] at h₀
            cases h₀
            rfl
        | error e m₁ =>
            rw [ha] at h₀
            cases h₀
      exact retriesTo_write_iff hw hc hm hn happly
  | _ =>
      have hrun : ∀ m' : CacheStateMachine,
          (applyWithRetry entry 1).run m' = .ok (some .none) m' := by
        intro m'
        rw [applyWithRetry, hw]
        rfl
      rw [hrun] at h₀
      cases h₀
      refine ⟨fun _ => retriesTo_of_run (hrun m) rfl hm, ?_⟩
      intro _ _ text id htext
      rw [hw] at htext
      cases htext

end Attempts

/-! ## A failing call on the session table -/

/-- A machine with one user. -/
def signedUp : CacheStateMachine :=
  after (apply ⟨1, 1, .write "SIGNUP h", "zoe", ""⟩)
    { useDb := true, capacity := 1, db := Database.empty [1, 2] }

theorem signedUp_agrees : Coherent signedUp ∧ Mirrored signedUp := by
  have hfresh : Coherent { useDb := true, capacity := 1, db := Database.empty [1, 2] } := by
    refine ⟨rfl, Nat.one_pos, rfl, rfl, fun _ => rfl, ?_⟩
    intro u s hs
    cases hs
  have hrun : (apply ⟨1, 1, .write "SIGNUP h", "zoe", ""⟩).run
      { useDb := true, capacity := 1, db := Database.empty [1, 2] }
      = .ok (.bool true) signedUp := run_eq_of_value? (by decide +kernel)
  have h := wp_apply_db hfresh ⟨1, 1, .write "SIGNUP h", "zoe", ""⟩
  rw [wp_of_run_ok hrun] at h
  refine ⟨h.2.1, h.2.2.2 ⟨Dict.rel_empty, rfl⟩ ?_⟩
  intro id hid
  cases hid

/-- A request of a client that has no session yet. -/
def firstSet : LogEntry := ⟨1, 2, .write "SET k v", "zoe", "c1:1"⟩

/-- The call that saves the session raises once: the retry returns the
result, and the session table of the database has no row for it. -/
theorem retried_apply_loses_session :
    (Coherent signedUp ∧ Mirrored signedUp) ∧
    value? (applyWithRetry firstSet 2) { signedUp with sessionFaults := [true] }
      = some (some (.bool true)) ∧
    (after (applyWithRetry firstSet 2) { signedUp with sessionFaults := [true] }).sessions.get? "c1"
      = some ⟨1, .bool true, 2⟩ ∧
    (after (applyWithRetry firstSet 2)
      { signedUp with sessionFaults := [true] }).db.sessions.get? "c1" = none ∧
    (after (applyWithRetry firstSet 1) signedUp).db.sessions.get? "c1" = some ⟨1, "true", 2⟩ :=
  ⟨signedUp_agrees, by decide +kernel⟩

theorem retried_apply_is_atomic_iff_twice :
    RetriesTo firstSet { signedUp with faults := [true, true] } (.bool true)
      (after (applyWithRetry firstSet 1) signedUp) := by
  have hquiet : ({ signedUp with faults := [true, true] } : CacheStateMachine).quiet = signedUp :=
    signedUp_agrees.1.quiet_eq
  have hrequest : firstSet.request = some ⟨"c1", 1⟩ := by decide +kernel
  have h₀ : (applyWithRetry firstSet 1).run signedUp
      = .ok (some (.bool true)) (after (applyWithRetry firstSet 1) signedUp) :=
    run_eq_of_value? (by decide +kernel)
  have hm : Mirrored { signedUp with faults := [true, true] } :=
    ⟨signedUp_agrees.2.rows, signedUp_agrees.2.named⟩
  refine (retried_apply_is_atomic_iff (by rw [hquiet]; exact signedUp_agrees.1) hm ?_
    (by rw [hquiet]; exact h₀)).1 ?_
  · intro id hid
    rw [hrequest] at hid
    obtain rfl := Option.some.inj hid
    decide
  · intro _ _ _ _ _
    change signedUp.sessionFaults.headD false = false ∧
      (_ → signedUp.sessionFaults.tail.headD false = false)
    rw [signedUp_agrees.1.quietSessions]
    exact ⟨rfl, fun _ => rfl⟩

end KvCache
