import KvCache.Retries
import KvCache.SnapshotRuns

/-!
# Which session is evicted

A full session table gives up the session with the smallest log index. That
is the one used longest ago as long as indexes grow with time
(`fresh_session_is_kept`). The log of a single node lives in RAM and starts
again with the node while its sessions come back from the database, and then
the session just made can be the one that goes.

Time is the history of a node: the requests that it has executed, oldest first,
each with its log index (`NodeRun`). The invariant is that every session carries
the index of its client's last request in the history (`Aged`). An executed
request puts its client last and keeps it (`Aged.set`), an eviction only takes
sessions away (`Aged.without`), and reads, restarts and restored snapshots leave
the sessions as they were, or as they were on the other node.

`Aged` says nothing about the order of the indexes. Where they are in the order
of use (`InLogOrder`), the session with the smallest index is the one whose
client was used longest ago (`oldest_is_oldest`), so exactly that one goes when
the table overflows (`oldestGoes`), and it is not the one just made
(`OldestGoes.newest`). In a history whose indexes grow they always are
(`inLogOrder_of_growing`); after a restart of a single node they need not be
(`fresh_session_is_evicted`).
-/

namespace KvCache

open StateWp

/-- What an already-applied request returned, or none if unknown. -/
def sessionResult (requestId : String) : M Result :=
  match parseRequestId requestId with
  | .error e => throw e
  | .ok id => do
    let m ← get
    match m.sessions.get? id.clientId with
    | some s => if s.seq = id.seq then pure s.result else pure .none
    | none => pure .none

/-! ## Runs of one node -/

/-- The client and the index of a request that an apply executes. -/
def executed (m : CacheStateMachine) (entry : LogEntry) : List (String × Nat) :=
  match entry.request with
  | none => []
  | some id => if m.sessions.answerTo id = none then [(id.clientId, entry.index)] else []

/-- The engine applies an entry, at once or after failing calls on users and
entries. It tries again until an apply returns, so an entry whose apply
raises by itself is never got past. -/
inductive Applied (m : CacheStateMachine) (entry : LogEntry) (r : Result) :
    CacheStateMachine → Prop where
  | once {m' : CacheStateMachine} : (apply entry).run m = .ok r m' → Applied m entry r m'
  | retried {text : String} {faults sessionFaults : List Bool} {n : Nat}
      {m₀ m' : CacheStateMachine} :
      entry.command = .write text → (∃ r₀, (apply entry).run m = .ok r₀ m₀) →
      SessionCallsReturn { m with faults, sessionFaults } entry →
      (applyWithRetry entry n).run { m with faults, sessionFaults } = .ok (some r) m' →
      Applied m entry r m'.quiet

/-- The states of a node in front of a database, with the requests it has
executed, oldest first. It starts with empty tables, applies entries, serves
reads, is restarted on its database, and restores snapshots of other nodes:
their history is its own from then on. -/
inductive NodeRun (glob : String → String → Bool) :
    List (String × Nat) → CacheStateMachine → Prop where
  | made {capacity : Nat} (clock : List Int) : 0 < capacity →
      NodeRun glob [] (machineOf true capacity clock)
  | applied {hist : List (String × Nat)} {m m' : CacheStateMachine} {entry : LogEntry} {r : Result} :
      NodeRun glob hist m → entry.Named → Applied m entry r m' →
      NodeRun glob (hist ++ executed m entry) m'
  | read {hist : List (String × Nat)} {m m' : CacheStateMachine} {op : Op} {out : Output} :
      NodeRun glob hist m → op.entry? = none → (op.run glob).run m = .ok out m' →
      NodeRun glob hist m'
  | restarted {hist : List (String × Nat)} {m m' : CacheStateMachine} {capacity : Nat} :
      NodeRun glob hist m → 0 < capacity →
      loadFromDb.run { useDb := true, capacity, db := m.db } = .ok () m' →
      NodeRun glob hist m'
  | restored {hist hist₁ : List (String × Nat)} {m m₁ m' : CacheStateMachine} :
      NodeRun glob hist m → NodeRun glob hist₁ m₁ →
      (restore m₁.db.dumpTo).run m = .ok () m' → NodeRun glob hist₁ m'

/-! ## Ages -/

/-- The last request of a client in a history is at place `k`, under log
index `index`. -/
def LastUsed (hist : List (String × Nat)) (clientId : String) (k index : Nat) : Prop :=
  hist[k]? = some (clientId, index) ∧ ∀ j p, k < j → hist[j]? = some p → p.1 ≠ clientId

/-- Every session has the index of its client's last request. -/
def Aged (hist : List (String × Nat)) (sessions : Sessions) : Prop :=
  ∀ c s, sessions.get? c = some s → ∃ k, LastUsed hist c k s.index

/-- The indexes in a table are in the order in which its clients were last
used. -/
def InLogOrder (hist : List (String × Nat)) (sessions : Sessions) : Prop :=
  ∀ c s c' s' k k', sessions.get? c = some s → sessions.get? c' = some s' →
    LastUsed hist c k s.index → LastUsed hist c' k' s'.index → k < k' → s.index < s'.index

section Ages

variable {hist : List (String × Nat)} {sessions : Sessions} {clientId : String} {index : Nat}

theorem lastUsed_snoc (hist : List (String × Nat)) (clientId : String) (index : Nat) :
    LastUsed (hist ++ [(clientId, index)]) clientId hist.length index := by
  refine ⟨by simp, ?_⟩
  intro j p hj hp
  rw [List.getElem?_eq_none (by simp; omega)] at hp
  cases hp

theorem LastUsed.snoc {c : String} {k i : Nat} (h : LastUsed hist c k i) (hne : c ≠ clientId) :
    LastUsed (hist ++ [(clientId, index)]) c k i := by
  obtain ⟨hk, hlast⟩ := h
  have hlt : k < hist.length := (List.getElem?_eq_some_iff.mp hk).1
  refine ⟨by rw [List.getElem?_append_left hlt]; exact hk, ?_⟩
  intro j p hj hp
  by_cases hjl : j < hist.length
  · rw [List.getElem?_append_left hjl] at hp
    exact hlast j p hj hp
  · rw [List.getElem?_append_right (by omega)] at hp
    cases hd : j - hist.length with
    | zero =>
        rw [hd] at hp
        obtain rfl : (clientId, index) = p := by simpa using hp
        exact hne.symm
    | succ n =>
        rw [hd] at hp
        simp at hp

theorem LastUsed.unique {c : String} {k k' i i' : Nat} (h : LastUsed hist c k i)
    (h' : LastUsed hist c k' i') : k = k' := by
  rcases Nat.lt_trichotomy k k' with hlt | heq | hlt
  · exact absurd rfl (h.2 k' _ hlt h'.1)
  · exact heq
  · exact absurd rfl (h'.2 k _ hlt h.1)

/-- A history whose indexes grow has every table in order. -/
theorem inLogOrder_of_growing (h : hist.Pairwise fun p q => p.2 < q.2) (sessions : Sessions) :
    InLogOrder hist sessions := by
  intro c s c' s' k k' _ _ hk hk' hlt
  obtain ⟨hlt₁, he₁⟩ := List.getElem?_eq_some_iff.mp hk.1
  obtain ⟨hlt₂, he₂⟩ := List.getElem?_eq_some_iff.mp hk'.1
  have := List.pairwise_iff_getElem.mp h k k' hlt₁ hlt₂ hlt
  rw [he₁, he₂] at this
  exact this

theorem Aged.set (h : Aged hist sessions) (seq : Int) (r : Result) :
    Aged (hist ++ [(clientId, index)]) (sessions.set clientId ⟨seq, r, index⟩) := by
  intro c s hs
  rw [Dict.get?_set] at hs
  split at hs
  · next hc =>
      cases hs
      subst hc
      exact ⟨hist.length, lastUsed_snoc hist c index⟩
  · next hc =>
      obtain ⟨k, hk⟩ := h c s hs
      exact ⟨k, hk.snoc hc⟩

theorem LastUsed.of_snoc {c : String} {k i : Nat}
    (h : LastUsed (hist ++ [(clientId, index)]) c k i) (hne : c ≠ clientId) : LastUsed hist c k i := by
  obtain ⟨hk, hlast⟩ := h
  have hlt : k < hist.length := by
    by_contra hge
    have hlen := (List.getElem?_eq_some_iff.mp hk).1
    rw [List.length_append, List.length_singleton] at hlen
    rw [List.getElem?_append_right (by omega), show k - hist.length = 0 by omega] at hk
    simp only [List.getElem?_cons_zero, Option.some.injEq, Prod.mk.injEq] at hk
    exact hne hk.1.symm
  refine ⟨by rwa [List.getElem?_append_left hlt] at hk, ?_⟩
  intro j p hj hp
  have hjl := (List.getElem?_eq_some_iff.mp hp).1
  exact hlast j p hj (by rwa [List.getElem?_append_left hjl])

/-- The newest request has the largest index of a table in order. -/
theorem InLogOrder.set (h : InLogOrder hist sessions)
    (hnew : ∀ c s, sessions.get? c = some s → s.index < index) (seq : Int) (r : Result) :
    InLogOrder (hist ++ [(clientId, index)]) (sessions.set clientId ⟨seq, r, index⟩) := by
  intro c s c' s' k k' hs hs' hk hk' hlt
  rw [Dict.get?_set] at hs hs'
  by_cases hc : c = clientId
  · subst hc
    rw [if_pos rfl] at hs
    cases hs
    have := hk.unique (lastUsed_snoc hist c index)
    have hlen := (List.getElem?_eq_some_iff.mp hk'.1).1
    rw [List.length_append, List.length_singleton] at hlen
    omega
  · rw [if_neg hc] at hs
    by_cases hc' : c' = clientId
    · subst hc'
      rw [if_pos rfl] at hs'
      cases hs'
      exact hnew c s hs
    · rw [if_neg hc'] at hs'
      exact h c s c' s' k k' hs hs' (hk.of_snoc hc) (hk'.of_snoc hc') hlt

theorem Aged.without (h : Aged hist sessions) (evict : Option String) :
    Aged hist (sessions.without evict) := by
  intro c s hs
  unfold Sessions.without at hs
  split at hs
  · rw [Dict.get?_erase] at hs
    split at hs
    · cases hs
    · exact h c s hs
  · exact h c s hs

/-- With the indexes in order, the client that goes is the one used longest
ago. -/
theorem oldest_is_oldest (hage : Aged hist sessions) (hord : InLogOrder hist sessions) {c : String}
    {s : Session} (hs : sessions.get? c = some s) (ho : sessions.oldest = some c) {c' : String}
    {s' : Session} (hs' : sessions.get? c' = some s') (hne : c' ≠ c) :
    ∃ k k', LastUsed hist c k s.index ∧ LastUsed hist c' k' s'.index ∧ k < k' := by
  obtain ⟨k, hk⟩ := hage c s hs
  obtain ⟨k', hk'⟩ := hage c' s' hs'
  refine ⟨k, k', hk, hk', ?_⟩
  obtain ⟨p, hp, rfl⟩ := Option.map_eq_some_iff.mp ho
  have hps : p.2 = s := by
    have hget : sessions.get? p.1 = some p.2 := Dict.get?_eq_some.mpr (List.argmin_mem hp)
    exact Option.some.inj (hget.symm.trans hs)
  have hle : s.index ≤ s'.index := by
    have h := List.le_of_mem_argmin (Dict.get?_eq_some.mp hs') hp
    rw [hps] at h
    exact h
  rcases Nat.lt_trichotomy k k' with hlt | heq | hlt
  · exact hlt
  · subst heq
    have := hk.1.symm.trans hk'.1
    simp only [Option.some.injEq, Prod.mk.injEq] at this
    exact absurd this.1.symm hne
  · have := hord c' s' p.1 s k' k hs' hs hk' hk hlt
    omega

end Ages

/-! ## Fresh sessions -/

section Runs

variable {glob : String → String → Bool} {hist : List (String × Nat)}
  {m m' : CacheStateMachine} {entry : LogEntry} {id : RequestId} {r : Result}

theorem still_read (glob : String → String → Bool) {op : Op} (hop : op.entry? = none) : Keeps (Still m) (op.run glob) := by
  have hget (username key : String) (atMs : Option Int) (nowMs : Int) :
      Keeps (Still m) (getValue username key atMs nowMs) := by
    refine keeps_bind (still_getStore username) fun store => ?_
    cases store with
    | none => exact keeps_pure _
    | some s => exact keeps_bind (still_lookup s username key) fun _ => keeps_pure _
  cases op with
  | apply entry => cases hop
  | get username key atMs nowMs => exact keeps_bind (hget _ _ _ _) fun _ => keeps_pure _
  | has username key nowMs =>
      exact keeps_bind (keeps_bind (hget _ _ _ _) fun _ => keeps_pure _) fun _ => keeps_pure _
  | ttl username key nowMs =>
      refine keeps_bind (keeps_bind (still_getStore username) fun store => ?_) fun _ => keeps_pure _
      cases store with
      | none => exact keeps_pure _
      | some s => exact keeps_bind (still_lookup s username key) fun _ => keeps_pure _
  | keys username pattern nowMs =>
      refine keeps_bind (keeps_bind (still_getStore username) fun store => ?_) fun _ => keeps_pure _
      cases store with
      | none => exact keeps_pure _
      | some s =>
          exact keeps_bind keeps_get fun _ =>
            keeps_ite (keeps_bind (still_dbRead _) fun _ => keeps_pure _) (keeps_pure _)

/-- What an apply does to the ages in the table. -/
theorem Aged.apply (h : Aged hist m.sessions) (hrun : (KvCache.apply entry).run m = .ok r m') :
    Aged (hist ++ executed m entry) m'.sessions := by
  have hs := sessions_apply entry m
  rw [wp_of_run_ok hrun] at hs
  unfold executed
  cases hid : entry.request with
  | none =>
      rw [hid] at hs
      simpa using hs ▸ h
  | some id =>
      rw [hid] at hs
      cases ha : m.sessions.answerTo id with
      | some a =>
          simp only [ha] at hs
          simpa [ha] using hs.2 ▸ h
      | none =>
          simp only [ha] at hs
          simp only [ha, if_true]
          rw [hs]
          exact (h.set id.seq r).without _

/-- An apply that was tried again ends as one without failing calls. -/
theorem Applied.run (hc : Coherent m) (hm : Mirrored m) (hn : entry.Named)
    (h : Applied m entry r m') : (KvCache.apply entry).run m = .ok r m' := by
  cases h with
  | once hrun => exact hrun
  | @retried text faults sessionFaults n m₀ m' hw hquiet hcalls hretry =>
      obtain ⟨r₀, hrun⟩ := hquiet
      have hq : ({ m with faults, sessionFaults } : CacheStateMachine).quiet = m := hc.quiet_eq
      have hto := ((retriesTo_write_iff (m := { m with faults, sessionFaults }) hw
        (by rw [hq]; exact hc) (hm.of_rows rfl rfl) hn (by rw [hq]; exact hrun)).1 hcalls).2 n r m'
        hretry
      have happ := wp_apply_db hc entry
      rw [wp_of_run_ok hrun] at happ
      rw [hto.1, hto.2.1, happ.2.1.quiet_eq]
      exact hrun

theorem NodeRun.invariant (h : NodeRun glob hist m) :
    Coherent m ∧ Mirrored m ∧ Aged hist m.sessions := by
  induction h with
  | made clock hc =>
      refine ⟨coherent_machineOf hc clock, ⟨Dict.rel_empty, rfl⟩, ?_⟩
      intro c s hs
      cases hs
  | @applied hist m m' entry r _ hn happlied ih =>
      obtain ⟨hcoh, hm, hage⟩ := ih
      have hrun := happlied.run hcoh hm hn
      have happ := wp_apply_db hcoh entry
      rw [wp_of_run_ok hrun] at happ
      exact ⟨happ.2.1, happ.2.2.2 hm hn, hage.apply hrun⟩
  | @read hist m m' op out _ hop hrun ih =>
      obtain ⟨hcoh, hm, hage⟩ := ih
      have hrd := wp_op_db hcoh glob op
      have hst := still_read glob hop m (Still.refl m)
      rw [wp_of_run_ok hrun] at hrd hst
      refine ⟨hrd.2, hm.of_still hst, ?_⟩
      rw [hst.sessions]
      exact hage
  | @restarted hist m m' capacity _ hc hrun ih =>
      obtain ⟨hcoh, hm, hage⟩ := ih
      have hload := wp_loadFromDb (m := { useDb := true, capacity, db := m.db }) rfl hc rfl rfl
        hcoh.keyed
      rw [wp_of_run_ok hrun] at hload
      obtain ⟨hcoh', hdb, -, hread⟩ := hload
      have hss : m'.sessions = m.sessions :=
        Except.ok.inj (hread.symm.trans (readSessions_rows hm.rows))
      refine ⟨hcoh', hm.of_rows (by rw [hdb]) hss, ?_⟩
      rw [hss]
      exact hage
  | @restored hist hist₁ m m₁ m' _ _ hrun ih ih₁ =>
      obtain ⟨hcoh₁, hm₁, hage₁⟩ := ih₁
      have hrestore := wp_restore_dumpTo ih.1 hcoh₁
      rw [wp_of_run_ok hrun] at hrestore
      obtain ⟨hcoh', -, hrows, hread⟩ := hrestore
      have hss : m'.sessions = m₁.sessions :=
        Except.ok.inj (hread.symm.trans (readSessions_rows hm₁.rows))
      refine ⟨hcoh', hm₁.of_rows hrows hss, ?_⟩
      rw [hss]
      exact hage₁

/-- The table an executed request makes, before one session has to go. -/
def tableWith (m : CacheStateMachine) (id : RequestId) (r : Result) (index : Nat) : Sessions :=
  m.sessions.set id.clientId ⟨id.seq, r, index⟩

/-- One session of the table is gone, of the client that was used longest
ago, and nothing else is. -/
def OldestGoes (hist : List (String × Nat)) (table sessions : Sessions) : Prop :=
  ∃ c s, table.get? c = some s ∧ sessions = table.erase c ∧
    ∀ c' s', table.get? c' = some s' → c' ≠ c →
      ∃ k k', LastUsed hist c k s.index ∧ LastUsed hist c' k' s'.index ∧ k < k'

/-- A table too large, with its indexes in order, gives up the oldest. -/
theorem oldestGoes {table : Sessions} (hage : Aged hist table) (hord : InLogOrder hist table)
    (hover : maxSessions < table.size) :
    OldestGoes hist table (table.without table.toEvict) := by
  unfold Sessions.toEvict
  rw [if_pos hover]
  cases ho : table.oldest with
  | none =>
      have hnil : table.items = [] := List.argmin_eq_none.mp (Option.map_eq_none_iff.mp ho)
      unfold Dict.size at hover
      rw [hnil] at hover
      cases hover
  | some old =>
      obtain ⟨p, hp, rfl⟩ := Option.map_eq_some_iff.mp ho
      have hs : table.get? p.1 = some p.2 := Dict.get?_eq_some.mpr (List.argmin_mem hp)
      exact ⟨p.1, p.2, hs, rfl, fun c' s' hs' hne => oldest_is_oldest hage hord hs ho hs' hne⟩

/-- The oldest is not the newest. -/
theorem OldestGoes.newest {table sessions : Sessions} {clientId : String} {index : Nat} {s : Session}
    (h : OldestGoes (hist ++ [(clientId, index)]) table sessions)
    (hnew : table.get? clientId = some s) (hover : maxSessions < table.size) :
    sessions.get? clientId = some s := by
  obtain ⟨c, s', hc, rfl, hall⟩ := h
  have hne : clientId ≠ c := by
    rintro rfl
    obtain ⟨q, hq, hq'⟩ := exists_other_session hover clientId
    obtain ⟨k, k', hk, hk', hlt⟩ := hall q.1 q.2 (Dict.get?_eq_some.mpr hq) hq'
    have := hk.unique (lastUsed_snoc hist clientId index)
    have hlen := (List.getElem?_eq_some_iff.mp hk'.1).1
    rw [List.length_append, List.length_singleton] at hlen
    omega
  rw [Dict.get?_erase, if_neg hne]
  exact hnew

/-- Right after it was executed a request is found. A table with room keeps
all its sessions, and one that overflows gives up the session used longest
ago, unless its indexes are then not in the order in which its clients were
last used. -/
theorem fresh_session_is_kept (h : NodeRun glob hist m) (hn : entry.Named)
    (hid : entry.request = some id) (hexec : Executes m entry) (happ : Applied m entry r m')
    (hord : m.sessions.Overflows id → InLogOrder hist m.sessions ∧
      ∀ c s, m.sessions.get? c = some s → s.index < entry.index) :
    m'.sessions.answerTo id = some r ∧ (sessionResult entry.requestId).run m' = .ok r m' ∧
      ((tableWith m id r entry.index).size ≤ maxSessions →
        m'.sessions = tableWith m id r entry.index) ∧
      (maxSessions < (tableWith m id r entry.index).size →
        OldestGoes (hist ++ [(id.clientId, entry.index)]) (tableWith m id r entry.index)
          m'.sessions) := by
  obtain ⟨hcoh, hm, hold⟩ := h.invariant
  have hage : Aged (hist ++ [(id.clientId, entry.index)]) (tableWith m id r entry.index) :=
    hold.set id.seq r
  have hord : maxSessions < (tableWith m id r entry.index).size →
      InLogOrder (hist ++ [(id.clientId, entry.index)]) (tableWith m id r entry.index) := by
    intro hover
    unfold tableWith at hover
    rw [size_set_session] at hover
    obtain ⟨hin, hnew⟩ := hord hover
    exact hin.set hnew id.seq r
  have hafter : m'.sessions
      = (tableWith m id r entry.index).without (tableWith m id r entry.index).toEvict := by
    have hs := sessions_apply entry m
    rw [wp_of_run_ok (happ.run hcoh hm hn), hid] at hs
    simp only [hexec id hid] at hs
    exact hs
  have hnew : (tableWith m id r entry.index).get? id.clientId = some ⟨id.seq, r, entry.index⟩ := by
    simp [tableWith]
  generalize tableWith m id r entry.index = table at hord hage hafter hnew
  have hroom : table.size ≤ maxSessions → m'.sessions = table := by
    intro hle
    rw [hafter, Sessions.toEvict, if_neg (Nat.not_lt.mpr hle), Sessions.without]
  have hgone : maxSessions < table.size →
      OldestGoes (hist ++ [(id.clientId, entry.index)]) table m'.sessions := by
    intro hover
    rw [hafter]
    exact oldestGoes hage (hord hover) hover
  have hget : m'.sessions.get? id.clientId = some ⟨id.seq, r, entry.index⟩ := by
    rcases Nat.lt_or_ge maxSessions table.size with hover | hle
    · exact (hgone hover).newest hnew hover
    · rw [hroom hle]
      exact hnew
  refine ⟨?_, ?_, hroom, hgone⟩
  · unfold Sessions.answerTo
    rw [hget]
    simp
  · refine run_eq_ok ?_
    unfold sessionResult
    rw [(parse_of_request hid).2]
    dsimp only
    rw [wp_bind, wp_get, hget]
    simp

end Runs

/-- `SIGNUP h` -/
def signupEntry : LogEntry := ⟨1, 2, .write "SIGNUP h", "zoe", ""⟩

theorem signupEntry_run (glob : String → String → Bool) :
    NodeRun glob [] (after (apply signupEntry) (machineOf true 1 [])) := by
  have hsign : (apply signupEntry).run (machineOf true 1 [])
      = .ok (.bool true) (after (apply signupEntry) (machineOf true 1 [])) :=
    run_eq_of_value? (by decide +kernel)
  refine .applied (.made [] Nat.one_pos) ?_ (.once hsign)
  intro id hid
  cases hid

/-! ## A full table -/

/-- The name of the `i`-th client of a crowd. -/
def clientName (i : Nat) : String := "c" ++ i.repr

/-- A write of that client's, at a log index. -/
def crowdEntry (i index : Nat) : LogEntry :=
  ⟨1, index, .write "SET k v", "zoe", String.ofList ((clientName i).toList ++ [':', '1'])⟩

theorem clientName_inj {i j : Nat} (h : clientName i = clientName j) : i = j := by
  have hl : i.repr.toList = j.repr.toList := by
    have := congrArg String.toList h
    simpa [clientName] using this
  have hd : PyText.digits i.repr.toList = PyText.digits j.repr.toList := by rw [hl]
  rw [PyText.digits_repr, PyText.digits_repr] at hd
  exact Option.some.inj hd

theorem request_crowdEntry (i index : Nat) :
    (crowdEntry i index).request = some ⟨clientName i, 1⟩ := by
  have hne : (crowdEntry i index).requestId ≠ "" := by
    intro h
    have := congrArg String.toList h
    simp [crowdEntry] at this
  unfold LogEntry.request
  rw [if_neg hne]
  unfold parseRequestId crowdEntry
  rw [String.toList_ofList, PyText.rpartition_append (by decide)]
  have h1 : readInt ['1'] = .ok 1 := by decide
  simp only [h1, Except.map, Except.toOption, String.ofList_toList]

theorem crowdEntry_named (i index : Nat) : (crowdEntry i index).Named := by
  intro id hid
  rw [request_crowdEntry] at hid
  obtain rfl := Option.some.inj hid
  intro h
  have := congrArg String.toList h
  simp [clientName] at this

/-- A crowd's write is applied and its session recorded. -/
theorem crowd_applies {m : CacheStateMachine} (hcoh : Coherent m) {h : String}
    (hzoe : m.db.users.get? "zoe" = some h) {i : Nat} (index : Nat)
    (hfresh : m.sessions.get? (clientName i) = none) :
    ∃ m', (apply (crowdEntry i index)).run m = .ok (.bool true) m' ∧
      m'.db.users.get? "zoe" = some h ∧
      m'.sessions = m.sessions.record ⟨clientName i, 1⟩ (.bool true) index := by
  have hreq := request_crowdEntry i index
  have hans : m.sessions.answerTo ⟨clientName i, 1⟩ = none := by
    unfold Sessions.answerTo
    rw [hfresh]
  have hcmd : Reference.command (crowdEntry i index) m.db.reference
      = .ok (.bool true, m.db.reference.update "zoe" "k" (some ("v", none))) := by
    have hverb : (crowdEntry i index).verb = .ok (.set "k" "v" none) := by
      change parseVerb "SET k v" = _
      decide +kernel
    unfold Reference.command
    rw [hverb]
    change Reference.run "zoe" (.set "k" "v" none) m.db.reference = _
    unfold Reference.run
    simp [hzoe]
  have hwith : applyWith (Reference.command (crowdEntry i index)) (crowdEntry i index)
      m.db.reference m.sessions
      = .ok (.bool true, m.db.reference.update "zoe" "k" (some ("v", none)),
          m.sessions.record ⟨clientName i, 1⟩ (.bool true) index) := by
    obtain ⟨hne, hparse⟩ := parse_of_request hreq
    unfold applyWith
    rw [if_neg hne, hparse]
    simp only [hans, hcmd]
    rfl
  have happ := wp_apply_db hcoh (crowdEntry i index)
  cases hrun : (apply (crowdEntry i index)).run m with
  | error e m' =>
      rw [wp_of_run_error hrun, hwith] at happ
      cases happ.1
  | ok r m' =>
      rw [wp_of_run_ok hrun, hwith] at happ
      obtain ⟨heq, -⟩ := happ
      simp only [Except.ok.injEq, Prod.mk.injEq] at heq
      obtain ⟨rfl, href, hs⟩ := heq
      refine ⟨m', rfl, ?_, hs.symm⟩
      have hu := congrFun (congrArg Reference.users href) "zoe"
      exact hu.symm.trans hzoe

/-- A client that has not written yet is executed. -/
theorem executes_crowdEntry {m : CacheStateMachine} {i index : Nat}
    (hfresh : m.sessions.get? (clientName i) = none) : Executes m (crowdEntry i index) := by
  intro id hid
  rw [request_crowdEntry] at hid
  obtain rfl := Option.some.inj hid
  unfold Sessions.answerTo
  rw [hfresh]

/-- What is known of a node after a crowd of `n` clients wrote to it, under
the log indexes 3, 4 and so on. -/
structure Crowded (n : Nat) (hist : List (String × Nat)) (m : CacheStateMachine) : Prop where
  zoe : m.db.users.get? "zoe" = some "h"
  size : Dict.size m.sessions = n
  clients : ∀ c s, m.sessions.get? c = some s → ∃ i < n, c = clientName i ∧ s.index = i + 3
  growing : hist.Pairwise fun p q => p.2 < q.2
  below : ∀ p ∈ hist, p.2 < n + 3

theorem Crowded.fresh {n : Nat} {hist : List (String × Nat)} {m : CacheStateMachine}
    (h : Crowded n hist m) : m.sessions.get? (clientName n) = none := by
  cases hg : m.sessions.get? (clientName n) with
  | none => rfl
  | some s =>
      obtain ⟨i, hi, hname, -⟩ := h.clients _ _ hg
      have := clientName_inj hname
      omega

variable (glob : String → String → Bool)

theorem crowded_zero : ∃ hist m, NodeRun glob hist m ∧ Crowded 0 hist m := by
  have hnone : (after (apply signupEntry) (machineOf true 1 [])).sessions = Dict.empty := by
    decide +kernel
  refine ⟨_, _, signupEntry_run glob, by decide +kernel, by rw [hnone]; rfl, ?_, List.Pairwise.nil,
    nofun⟩
  intro c s hs
  rw [hnone] at hs
  cases hs

theorem crowded_succ {n : Nat} (hn : n < maxSessions) {hist : List (String × Nat)}
    {m : CacheStateMachine} (hrun : NodeRun glob hist m) (h : Crowded n hist m) :
    ∃ hist' m', NodeRun glob hist' m' ∧ Crowded (n + 1) hist' m' := by
  obtain ⟨m', hap, hzoe, hs⟩ := crowd_applies hrun.invariant.1 h.zoe (n + 3) h.fresh
  have hsize : Dict.size (m.sessions.set (clientName n) ⟨1, .bool true, n + 3⟩) = n + 1 := by
    rw [Dict.set_of_get?_none h.fresh, Dict.size_putLast_of_get? h.fresh, h.size]
  have hroom : Dict.size (m.sessions.set (clientName n) ⟨1, .bool true, n + 3⟩) ≤ maxSessions := by
    rw [hsize]
    exact hn
  have hexec : executed m (crowdEntry n (n + 3)) = [(clientName n, n + 3)] := by
    have hans : Sessions.answerTo m.sessions ⟨clientName n, 1⟩ = none :=
      executes_crowdEntry h.fresh _ (request_crowdEntry n (n + 3))
    rw [executed, request_crowdEntry]
    exact if_pos hans
  rw [Sessions.record_of_size hroom] at hs
  refine ⟨_, m', hrun.applied (crowdEntry_named n (n + 3)) (.once hap), hzoe, by rw [hs, hsize],
    ?_, ?_, ?_⟩
  · intro c s hc
    rw [hs, Dict.get?_set] at hc
    split at hc
    · next heq =>
        cases hc
        exact ⟨n, by omega, heq, rfl⟩
    · obtain ⟨i, hi, hname⟩ := h.clients c s hc
      exact ⟨i, by omega, hname⟩
  · rw [hexec, List.pairwise_append]
    refine ⟨h.growing, List.pairwise_singleton _ _, ?_⟩
    intro p hp q hq
    obtain rfl := List.mem_singleton.mp hq
    exact h.below p hp
  · intro p hp
    rw [hexec, List.mem_append, List.mem_singleton] at hp
    rcases hp with hp | rfl
    · exact (h.below p hp).trans (Nat.lt_succ_self _)
    · exact Nat.lt_succ_self _

theorem exists_crowd {n : Nat} (hn : n ≤ maxSessions) :
    ∃ hist m, NodeRun glob hist m ∧ Crowded n hist m := by
  induction n with
  | zero => exact crowded_zero glob
  | succ n ih =>
      obtain ⟨hist, m, hrun, h⟩ := ih (by omega)
      exact crowded_succ glob (by omega) hrun h

/-- The crowd is still known after a restart. -/
theorem exists_restarted_crowd : ∃ hist m, NodeRun glob hist m ∧ Crowded maxSessions hist m := by
  obtain ⟨hist, m₀, hrun₀, h₀⟩ := exists_crowd glob (Nat.le_refl maxSessions)
  obtain ⟨hcoh, hm, -⟩ := hrun₀.invariant
  have hload := wp_loadFromDb (m := { useDb := true, capacity := 1, db := m₀.db }) rfl
    Nat.one_pos rfl rfl hcoh.keyed
  cases hb : loadFromDb.run { useDb := true, capacity := 1, db := m₀.db } with
  | error e m =>
      rw [wp_of_run_error hb] at hload
      exact absurd (readSessions_rows hm.rows) (hload _)
  | ok u m =>
      rw [wp_of_run_ok hb] at hload
      obtain ⟨-, hdb, -, hread⟩ := hload
      have hss : m.sessions = m₀.sessions :=
        Except.ok.inj (hread.symm.trans (readSessions_rows hm.rows))
      exact ⟨hist, m, hrun₀.restarted Nat.one_pos hb, by rw [hdb]; exact h₀.zoe,
        by rw [hss]; exact h₀.size, by rw [hss]; exact h₀.clients, h₀.growing, h₀.below⟩

/-- A node with a full table is restarted and its log goes on: the next new
client's session drives out the one used longest ago. -/
theorem fresh_session_is_kept_crowd :
    ∃ hist m m', NodeRun (fun _ _ => true) hist m ∧ Dict.size m.sessions = maxSessions ∧
      (apply (crowdEntry maxSessions 10003)).run m = .ok (.bool true) m' ∧
      m'.sessions.answerTo ⟨clientName maxSessions, 1⟩ = some (.bool true) ∧
      OldestGoes (hist ++ [(clientName maxSessions, 10003)])
        (tableWith m ⟨clientName maxSessions, 1⟩ (.bool true) 10003) m'.sessions := by
  obtain ⟨hist, m, hrun, h⟩ := exists_restarted_crowd (fun _ _ => true)
  obtain ⟨m', hap, -, -⟩ := crowd_applies hrun.invariant.1 h.zoe 10003 h.fresh
  have hkept := fresh_session_is_kept hrun (crowdEntry_named _ _) (request_crowdEntry _ _)
    (executes_crowdEntry h.fresh) (.once hap) fun _ => ⟨inLogOrder_of_growing h.growing _, ?_⟩
  · have hover : maxSessions
        < (tableWith m ⟨clientName maxSessions, 1⟩ (.bool true) 10003).size := by
      rw [tableWith, Dict.set_of_get?_none h.fresh, Dict.size_putLast_of_get? h.fresh, h.size]
      exact Nat.lt_succ_self _
    exact ⟨hist, m, m', hrun, h.size, hap, hkept.1, hkept.2.2.2 hover⟩
  · intro c s hs
    obtain ⟨i, hi, -, hindex⟩ := h.clients c s hs
    have hmax : maxSessions = 10000 := rfl
    have hnew : (crowdEntry maxSessions 10003).index = 10003 := rfl
    omega

/-- A new session with the smallest index of a full table goes at once. -/
theorem evictedBy_newest {sessions : Sessions} {id : RequestId} {result : Result} {index : Nat}
    (hfresh : sessions.get? id.clientId = none) (hfull : maxSessions ≤ sessions.size)
    (hold : ∀ c s, sessions.get? c = some s → index < s.index) :
    sessions.evictedBy id result index = some id.clientId := by
  have hsize : maxSessions < Dict.size (sessions.set id.clientId ⟨id.seq, result, index⟩) := by
    rw [Dict.set_of_get?_none hfresh, Dict.size_putLast_of_get? hfresh]
    omega
  have hnew : Dict.get? (sessions.set id.clientId ⟨id.seq, result, index⟩) id.clientId
      = some ⟨id.seq, result, index⟩ := by simp
  unfold Sessions.evictedBy Sessions.toEvict
  rw [if_pos hsize]
  unfold Sessions.oldest
  cases hmin : List.argmin (fun p => p.2.index)
      (Dict.items (sessions.set id.clientId ⟨id.seq, result, index⟩)) with
  | none =>
      rw [List.argmin_eq_none] at hmin
      have := Dict.get?_eq_some.mp hnew
      rw [hmin] at this
      cases this
  | some p =>
      have hle : p.2.index ≤ index := List.le_of_mem_argmin (Dict.get?_eq_some.mp hnew) hmin
      have hp := Dict.get?_eq_some.mpr (List.argmin_mem hmin)
      rw [Dict.get?_set] at hp
      split at hp
      · next heq => exact congrArg some heq
      · have := hold _ _ hp
        omega

/-- A node is restarted on its database with a full session table, and the
log starts again: the session of the first new client is the one that goes. -/
theorem fresh_session_is_evicted :
    ∃ hist m m' id, NodeRun (fun _ _ => true) hist m ∧
      (crowdEntry maxSessions 2).request = some id ∧ Executes m (crowdEntry maxSessions 2) ∧
      (apply (crowdEntry maxSessions 2)).run m = .ok (.bool true) m' ∧
      m'.sessions.answerTo id = none := by
  obtain ⟨hist, m, hrun, h⟩ := exists_restarted_crowd (fun _ _ => true)
  obtain ⟨m', hap, -, hs⟩ := crowd_applies hrun.invariant.1 h.zoe 2 h.fresh
  refine ⟨hist, m, m', _, hrun, request_crowdEntry _ _, executes_crowdEntry h.fresh, hap, ?_⟩
  have hev : m.sessions.evictedBy ⟨clientName maxSessions, 1⟩ (.bool true) 2
      = some (clientName maxSessions) :=
    evictedBy_newest h.fresh h.size.ge fun c s hs => by
      obtain ⟨i, -, -, hindex⟩ := h.clients c s hs
      omega
  have hnone : m'.sessions.get? (clientName maxSessions) = none := by
    rw [hs]
    unfold Sessions.record
    dsimp only
    rw [show Sessions.toEvict _ = m.sessions.evictedBy ⟨clientName maxSessions, 1⟩ (.bool true) 2
      from rfl, hev]
    unfold Sessions.without
    rw [Dict.get?_erase, if_pos rfl]
  unfold Sessions.answerTo
  rw [hnone]

end KvCache
