import KvCache.MachineRuns
import KvCache.Sessions

/-!
# The machine without a database

With `useDb` off every method is a function of the RAM stores: reads never
raise and at most touch a key (`ramRead`), and a verb either raises without
any effect or gives a result and new stores (`Verb.ram`).
-/

namespace KvCache

open StateWp

/-- What a store holds of a key: its value and expiry time. -/
def Store.peek (s : Store) (key : String) : Option (String × Option Int) :=
  (s.cache.data.get? key).map fun v => (v, s.expiry.get? key)

/-- A new user's store. -/
def Store.fresh (username passwordHash : String) (capacity : Nat) (h : 0 < capacity) : Store :=
  { username, passwordHash, cache := LRUCache.empty capacity h, expiry := Dict.empty }

abbrev Stores := Dict String Store

/-- Does EXPIREAT or PERSIST find nothing to change? -/
def refusesExpiry (item : Option (String × Option Int)) (expireAt : Option Int) (atMs : Int) :
    Bool :=
  match item with
  | none => true
  | some (_, old) => expired old atMs || (expireAt.isNone && old.isNone)

/-- The result of a verb and the stores it leaves, in RAM only. -/
def Verb.ram (username : String) (capacity : Nat) (stores : Stores) :
    Verb → Except SmError (Result × Stores)
  | .signup passwordHash =>
    match stores.get? username with
    | some _ => .ok (.bool false, stores)
    | none =>
      if h : 0 < capacity then
        .ok (.bool true, stores.set username (Store.fresh username passwordHash capacity h))
      else .error (.valueError s!"Capacity must be positive, got {capacity}")
  | .set key value expireAt =>
    match stores.get? username with
    | none => .ok (.bool false, stores)
    | some s =>
      if key = "" then .error (.valueError "Key cannot be empty")
      else .ok (.bool true, stores.set username ((s.put key value).setExpiry key expireAt))
  | .delete key atMs =>
    match stores.get? username with
    | none => .ok (.bool false, stores)
    | some s => .ok (.bool (existedAt (s.peek key) atMs),
        (stores.set username (s.touch key)).set username
          (((s.touch key).uncache key).setExpiry key none))
  | .expiry key expireAt atMs =>
    match stores.get? username with
    | none => .ok (.bool false, stores)
    | some s =>
      if refusesExpiry (s.peek key) expireAt atMs then
        .ok (.bool false, stores.set username (s.touch key))
      else .ok (.bool true, (stores.set username (s.touch key)).set username
        ((s.touch key).setExpiry key expireAt))
  | .sweep atMs =>
    .ok (.int ((stores.values.map fun s => (s.sweep atMs).1).sum : Nat),
      stores.mapValues fun s => (s.sweep atMs).2)
  | .unknown => .ok (.none, stores)

/-! ## Stores that behave the same -/

/-- A relation between stores that verbs keep and do not see. `Room s key`
is what storing a pair with this key asks for. -/
structure StoreSim (capacity : Nat) (R : Store → Store → Prop) (Room : Store → String → Prop) :
    Prop where
  fresh : ∀ username passwordHash h, R (Store.fresh username passwordHash capacity h)
    (Store.fresh username passwordHash capacity h)
  peek : ∀ {s t}, R s t → ∀ k, s.peek k = t.peek k
  touch : ∀ {s t}, R s t → ∀ k, R (s.touch k) (t.touch k)
  store : ∀ {s t}, R s t → ∀ key value expireAt, key ≠ "" → Room s key →
    R ((s.put key value).setExpiry key expireAt) ((t.put key value).setExpiry key expireAt)
  drop : ∀ {s t}, R s t → ∀ k, R ((s.uncache k).setExpiry k none) ((t.uncache k).setExpiry k none)
  expire : ∀ {s t}, R s t → ∀ k expireAt, R (s.setExpiry k expireAt) (t.setExpiry k expireAt)
  sweep : ∀ {s t}, R s t → ∀ atMs,
    (s.sweep atMs).1 = (t.sweep atMs).1 ∧ R (s.sweep atMs).2 (t.sweep atMs).2

/-- A verb on related stores has the same result, and leaves them related. -/
theorem StoreSim.verb {capacity : Nat} {R : Store → Store → Prop} {Room : Store → String → Prop}
    (sim : StoreSim capacity R Room) {username : String} {S T : Stores} {verb : Verb}
    (h : Dict.Rel R S T)
    (hroom : ∀ key value expireAt s, verb = .set key value expireAt →
      S.get? username = some s → key ≠ "" → Room s key) :
    SameOutcome (fun p q => p.1 = q.1 ∧ Dict.Rel R p.2 q.2)
      (verb.ram username capacity S) (verb.ram username capacity T) := by
  have hcases := h.get?_cases username
  cases verb with
  | signup passwordHash =>
      simp only [Verb.ram]
      rcases hcases with ⟨hs, ht⟩ | ⟨s, t, hs, ht, -⟩
      · rw [hs, ht]
        by_cases hc : 0 < capacity
        · simp only [hc, dite_true]
          exact ⟨rfl, h.set _ (sim.fresh _ _ hc)⟩
        · simp only [hc, dite_false]
          rfl
      · rw [hs, ht]
        exact ⟨rfl, h⟩
  | set key value expireAt =>
      simp only [Verb.ram]
      rcases hcases with ⟨hs, ht⟩ | ⟨s, t, hs, ht, hst⟩
      · rw [hs, ht]
        exact ⟨rfl, h⟩
      · rw [hs, ht]
        by_cases hk : key = ""
        · simp only [hk, if_true]
          rfl
        · simp only [hk, if_false]
          exact ⟨rfl, h.set _ (sim.store hst _ _ _ hk (hroom key value expireAt s rfl hs hk))⟩
  | delete key atMs =>
      simp only [Verb.ram]
      rcases hcases with ⟨hs, ht⟩ | ⟨s, t, hs, ht, hst⟩
      · rw [hs, ht]
        exact ⟨rfl, h⟩
      · rw [hs, ht]
        exact ⟨by rw [sim.peek hst],
          (h.set _ (sim.touch hst key)).set _ (sim.drop (sim.touch hst key) key)⟩
  | expiry key expireAt atMs =>
      simp only [Verb.ram]
      rcases hcases with ⟨hs, ht⟩ | ⟨s, t, hs, ht, hst⟩
      · rw [hs, ht]
        exact ⟨rfl, h⟩
      · simp only [hs, ht, sim.peek hst key]
        split
        · exact ⟨rfl, h.set _ (sim.touch hst key)⟩
        · exact ⟨rfl, (h.set _ (sim.touch hst key)).set _
            (sim.expire (sim.touch hst key) key expireAt)⟩
  | sweep atMs =>
      refine ⟨?_, h.mapValues fun s t hst => (sim.sweep hst atMs).2⟩
      have hmap : S.values.map (fun s => (s.sweep atMs).1)
          = T.values.map fun t => (t.sweep atMs).1 :=
        List.forall₂_eq_eq_eq ▸ List.rel_map (R := R)
          (fun s t hst => (sim.sweep hst atMs).1) h.values
      simp only [hmap]
  | unknown => exact ⟨rfl, h⟩

section Ram

variable {m : CacheStateMachine} {username key : String}

theorem run_getStore_ram (hm : m.useDb = false) :
    (getStore username).run m = .ok (m.stores.get? username) m := by
  refine run_eq_ok ?_
  unfold getStore
  rw [wp_bind, wp_get]
  cases hs : m.stores.get? username with
  | none => simp [hm]
  | some s => simp

theorem run_lookup_ram (hm : m.useDb = false) (s : Store) :
    (lookup s username key).run m
      = .ok (s.peek key, s.touch key)
          { m with stores := m.stores.set username (s.touch key) } := by
  refine run_eq_ok ?_
  unfold lookup putStore Store.peek
  rw [wp_bind, wp_modify]
  simp only [LRUCache.get]
  cases hv : s.cache.data.get? key with
  | some v => simp
  | none => simp [hm]

theorem run_applySignup_ram (hm : m.useDb = false) {passwordHash : String} :
    (Verb.run username (.signup passwordHash)).run m =
      match Verb.ram username m.capacity m.stores (.signup passwordHash) with
      | .ok p => .ok p.1 { m with stores := p.2 }
      | .error e => .error e m := by
  simp only [Verb.ram]
  cases hs : m.stores.get? username with
  | some s =>
      refine run_eq_ok ?_
      unfold Verb.run applySignup
      rw [wp_bind, wp_bind, wp_of_run_ok (run_getStore_ram hm), hs]
      simp
  | none =>
      by_cases hc : 0 < m.capacity
      · simp only [hc, dite_true]
        refine run_eq_ok ?_
        unfold Verb.run applySignup newStore putStore
        rw [wp_bind, wp_bind, wp_of_run_ok (run_getStore_ram hm), hs]
        simp [hm, hc, Store.fresh]
      · simp only [hc, dite_false]
        refine run_eq_error ?_
        unfold Verb.run applySignup newStore putStore
        rw [wp_bind, wp_bind, wp_of_run_ok (run_getStore_ram hm), hs]
        simp [hm, hc]

theorem run_applySet_ram (hm : m.useDb = false) {value : String} {expireAt : Option Int} :
    (Verb.run username (.set key value expireAt)).run m =
      match Verb.ram username m.capacity m.stores (.set key value expireAt) with
      | .ok p => .ok p.1 { m with stores := p.2 }
      | .error e => .error e m := by
  simp only [Verb.ram]
  cases hs : m.stores.get? username with
  | none =>
      refine run_eq_ok ?_
      unfold Verb.run applySet
      rw [wp_bind, wp_bind, wp_of_run_ok (run_getStore_ram hm), hs]
      simp
  | some s =>
      by_cases hk : key = ""
      · simp only [hk, if_true]
        refine run_eq_error ?_
        unfold Verb.run applySet Store.cacheSet
        rw [wp_bind, wp_bind, wp_of_run_ok (run_getStore_ram hm), hs]
        simp [hm]
      · simp only [hk, if_false]
        refine run_eq_ok ?_
        unfold Verb.run applySet Store.cacheSet putStore
        rw [wp_bind, wp_bind, wp_of_run_ok (run_getStore_ram hm), hs]
        simp [hm, hk]

theorem run_applyDelete_ram (hm : m.useDb = false) {atMs : Option Int} :
    (Verb.run username (.delete key atMs)).run m =
      match Verb.ram username m.capacity m.stores (.delete key atMs) with
      | .ok p => .ok p.1 { m with stores := p.2 }
      | .error e => .error e m := by
  simp only [Verb.ram]
  cases hs : m.stores.get? username with
  | none =>
      refine run_eq_ok ?_
      unfold Verb.run applyDelete
      rw [wp_bind, wp_bind, wp_of_run_ok (run_getStore_ram hm), hs]
      simp
  | some s =>
      refine run_eq_ok ?_
      unfold Verb.run applyDelete putStore
      rw [wp_bind, wp_bind, wp_of_run_ok (run_getStore_ram hm), hs]
      dsimp only
      rw [wp_bind, wp_of_run_ok (run_lookup_ram hm s)]
      simp [hm]

theorem run_applyExpiry_ram (hm : m.useDb = false) {expireAt : Option Int} {atMs : Int} :
    (Verb.run username (.expiry key expireAt atMs)).run m =
      match Verb.ram username m.capacity m.stores (.expiry key expireAt atMs) with
      | .ok p => .ok p.1 { m with stores := p.2 }
      | .error e => .error e m := by
  simp only [Verb.ram]
  cases hs : m.stores.get? username with
  | none =>
      refine run_eq_ok ?_
      unfold Verb.run applyExpiry
      rw [wp_bind, wp_bind, wp_of_run_ok (run_getStore_ram hm), hs]
      simp
  | some s =>
      dsimp only
      by_cases hr : refusesExpiry (s.peek key) expireAt atMs = true
      · rw [if_pos hr]
        refine run_eq_ok ?_
        unfold Verb.run applyExpiry
        rw [wp_bind, wp_bind, wp_of_run_ok (run_getStore_ram hm), hs]
        dsimp only
        rw [wp_bind, wp_of_run_ok (run_lookup_ram hm s)]
        cases hp : s.peek key with
        | none => simp
        | some item =>
            rw [hp] at hr
            by_cases he : expired item.2 atMs = true
            · simp [he]
            · have hn : expireAt = none ∧ item.2 = none := by simpa [refusesExpiry, he] using hr
              simp [hn]
      · rw [if_neg hr]
        refine run_eq_ok ?_
        unfold Verb.run applyExpiry putStore
        rw [wp_bind, wp_bind, wp_of_run_ok (run_getStore_ram hm), hs]
        dsimp only
        rw [wp_bind, wp_of_run_ok (run_lookup_ram hm s)]
        cases hp : s.peek key with
        | none => simp [hp, refusesExpiry] at hr
        | some item =>
            rw [hp] at hr
            have he : expired item.2 atMs = false := by
              cases h : expired item.2 atMs <;> simp [refusesExpiry, h] at hr ⊢
            have hn : ¬ (expireAt = none ∧ item.2 = none) := by
              simpa [refusesExpiry, he] using hr
            simp [he, hn, hm]

/-- In RAM a verb is a function of the stores, and raises without effect. -/
theorem run_verb_ram (hm : m.useDb = false) (verb : Verb) :
    (verb.run username).run m = match verb.ram username m.capacity m.stores with
      | .ok p => .ok p.1 { m with stores := p.2 }
      | .error e => .error e m := by
  cases verb with
  | signup passwordHash => exact run_applySignup_ram hm
  | set key value expireAt => exact run_applySet_ram hm
  | delete key atMs => exact run_applyDelete_ram hm
  | expiry key expireAt atMs => exact run_applyExpiry_ram hm
  | sweep atMs =>
      refine run_eq_ok ?_
      unfold Verb.run applySweep sweepStores
      simp [hm]
  | unknown => rfl

/-! ## Whole entries -/

/-- The command of an entry in RAM. -/
def ramCommand (capacity : Nat) (entry : LogEntry) (stores : Stores) :
    Except SmError (Result × Stores) :=
  match entry.verb with
  | .ok verb => verb.ram entry.username capacity stores
  | .error e => .error e

/-- Applying an entry in RAM: the result, the stores and the sessions. -/
def ramApply (capacity : Nat) (entry : LogEntry) (stores : Stores) (sessions : Sessions) :
    Except SmError (Result × Stores × Sessions) :=
  applyWith (ramCommand capacity entry) entry stores sessions

theorem run_applyCommand_ram (hm : m.useDb = false) (entry : LogEntry) :
    (applyCommand entry).run m = match ramCommand m.capacity entry m.stores with
      | .ok p => .ok p.1 { m with stores := p.2 }
      | .error e => .error e m := by
  unfold applyCommand ramCommand
  cases entry.verb with
  | error e => rfl
  | ok verb => exact run_verb_ram hm verb

theorem run_recordSession_ram (hm : m.useDb = false) {requestId : String} {id : RequestId}
    (hid : parseRequestId requestId = .ok id) (result : Result) (index : Nat) :
    (recordSession requestId result index).run m
      = .ok () { m with sessions := m.sessions.record id result index } := by
  refine run_eq_ok ?_
  unfold recordSession
  rw [hid]
  simp [hm, Sessions.record]

/-- In RAM `apply` is a function of stores and sessions, and raises without
effect. -/
theorem run_apply_ram (hm : m.useDb = false) (entry : LogEntry) :
    (apply entry).run m = match ramApply m.capacity entry m.stores m.sessions with
      | .ok p => .ok p.1 { m with stores := p.2.1, sessions := p.2.2 }
      | .error e => .error e m := by
  have hc := run_applyCommand_ram hm entry
  unfold apply ramApply applyWith
  by_cases he : entry.requestId = ""
  · rw [if_pos he, if_pos he, hc]
    cases ramCommand m.capacity entry m.stores <;> rfl
  · rw [if_neg he, if_neg he]
    unfold checkSession
    cases hp : parseRequestId entry.requestId with
    | error e => rfl
    | ok id =>
        simp only [EStateM.run_bind, EStateM.run_get, EStateM.run_pure]
        cases ha : m.sessions.answerTo id with
        | some a => rfl
        | none =>
            simp only [EStateM.run_bind, hc]
            cases hr : ramCommand m.capacity entry m.stores with
            | error e => rfl
            | ok p =>
                have hm' : ({ m with stores := p.2 } : CacheStateMachine).useDb = false := hm
                simp only [run_recordSession_ram hm' hp]
                rfl

/-! ## Reads -/

/-- A GET in RAM touches the key. -/
theorem run_getValue_ram (hm : m.useDb = false) {s : Store} (hs : m.stores.get? username = some s)
    (key : String) (atMs : Option Int) (nowMs : Int) :
    ∃ v, (getValue username key atMs nowMs).run m
      = .ok v { m with stores := m.stores.set username (s.touch key) } := by
  unfold getValue
  rw [EStateM.run_bind, run_getStore_ram hm, hs]
  dsimp only
  rw [EStateM.run_bind, run_lookup_ram hm]
  exact ⟨_, rfl⟩

/-- A read in RAM returns, and at most touches a key. -/
theorem run_read_ram (hm : m.useDb = false) (glob : String → String → Bool) {op : Op}
    (hop : op.entry? = none) :
    ∃ out stores, (op.run glob).run m = .ok out { m with stores } ∧ ofApply (.ok out) = false ∧
      (stores = m.stores ∨ ∃ username key s, m.stores.get? username = some s ∧
        stores = m.stores.set username (s.touch key)) := by
  have hget (username key : String) (atMs : Option Int) (nowMs : Int) :
      ∃ v stores, (getValue username key atMs nowMs).run m = .ok v { m with stores } ∧
        (stores = m.stores ∨ ∃ username key s, m.stores.get? username = some s ∧
          stores = m.stores.set username (s.touch key)) := by
    cases hs : m.stores.get? username with
    | none =>
        unfold getValue
        rw [EStateM.run_bind, run_getStore_ram hm, hs]
        exact ⟨none, m.stores, rfl, Or.inl rfl⟩
    | some s =>
        obtain ⟨v, hv⟩ := run_getValue_ram hm hs key atMs nowMs
        exact ⟨v, _, hv, Or.inr ⟨username, key, s, hs, rfl⟩⟩
  cases op with
  | apply entry => cases hop
  | get username key atMs nowMs =>
      obtain ⟨v, stores, hrun, hst⟩ := hget username key atMs nowMs
      refine ⟨.value v, stores, ?_, rfl, hst⟩
      rw [Op.run, EStateM.run_bind, hrun]
      rfl
  | has username key nowMs =>
      obtain ⟨v, stores, hrun, hst⟩ := hget username key none nowMs
      refine ⟨.flag v.isSome, stores, ?_, rfl, hst⟩
      rw [Op.run, has, EStateM.run_bind, EStateM.run_bind, hrun]
      rfl
  | ttl username key nowMs =>
      unfold Op.run ttl
      simp only [EStateM.run_bind, run_getStore_ram hm]
      cases hs : m.stores.get? username with
      | none => exact ⟨_, m.stores, rfl, rfl, Or.inl rfl⟩
      | some s =>
          simp only [EStateM.run_bind, run_lookup_ram hm]
          exact ⟨_, _, rfl, rfl, Or.inr ⟨username, key, s, hs, rfl⟩⟩
  | keys username pattern nowMs =>
      unfold Op.run keys
      simp only [EStateM.run_bind, run_getStore_ram hm]
      cases hs : m.stores.get? username with
      | none => exact ⟨_, m.stores, rfl, rfl, Or.inl rfl⟩
      | some s =>
          refine ⟨.names (selectNames glob pattern (s.liveKeys nowMs)), m.stores, ?_, rfl, Or.inl rfl⟩
          simp only [EStateM.run_bind, EStateM.run_get]
          rw [if_neg (by simp [hm])]
          rfl

end Ram

end KvCache
