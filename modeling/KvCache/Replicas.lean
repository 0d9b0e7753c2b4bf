import KvCache.RamMode

/-!
# Replicas without a database

Two replicas in RAM that apply the same log, each serving its own reads. A
read makes a key the newest of its user, so it changes which key the next
eviction takes: the replicas stay the same up to the order of use (`Twin`)
as long as no SET finds a full cache, or where the order means nothing
because a cache holds one key. `replicas_agree_iff` says that these are
all the logs on which replicas agree.
-/

namespace KvCache

open StateWp

/-! ## Stores up to the order of use -/

/-- Two stores of one capacity that differ in the order of use at most. -/
structure Alike (capacity : Nat) (s t : Store) : Prop where
  username : s.username = t.username
  passwordHash : s.passwordHash = t.passwordHash
  left : s.cache.capacity = capacity
  right : t.cache.capacity = capacity
  expiry : s.expiry = t.expiry
  lookups : ∀ k, s.cache.data.get? k = t.cache.data.get? k

section Alike

variable {capacity : Nat} {s t : Store} {key : String}

theorem Alike.peek (h : Alike capacity s t) (k : String) : s.peek k = t.peek k := by
  rw [Store.peek, Store.peek, h.lookups k, h.expiry]

theorem Alike.isFull (h : Alike capacity s t) : s.cache.isFull = t.cache.isFull := by
  rw [LRUCache.isFull, LRUCache.isFull, h.left, h.right, Dict.size_of_get? h.lookups]

theorem alike_fresh (username passwordHash : String) (hc : 0 < capacity) :
    Alike capacity (Store.fresh username passwordHash capacity hc)
      (Store.fresh username passwordHash capacity hc) :=
  ⟨rfl, rfl, rfl, rfl, rfl, fun _ => rfl⟩

/-- A touch does not show. -/
theorem Alike.touch_right (h : Alike capacity s t) (key : String) : Alike capacity s (t.touch key) where
  username := h.username
  passwordHash := h.passwordHash
  left := h.left
  right := h.right
  expiry := h.expiry
  lookups k := by
    rw [h.lookups k]
    exact (LRUCache.get?_get t.cache key k).symm

theorem Alike.touch (h : Alike capacity s t) (key : String) :
    Alike capacity (s.touch key) (t.touch key) where
  username := h.username
  passwordHash := h.passwordHash
  left := h.left
  right := h.right
  expiry := h.expiry
  lookups k := by
    have hs := LRUCache.get?_get s.cache key k
    rw [h.lookups k] at hs
    exact hs.trans (LRUCache.get?_get t.cache key k).symm

theorem Alike.setExpiry (h : Alike capacity s t) (key : String) (expireAt : Option Int) :
    Alike capacity (s.setExpiry key expireAt) (t.setExpiry key expireAt) where
  username := h.username
  passwordHash := h.passwordHash
  left := h.left
  right := h.right
  expiry := by
    unfold Store.setExpiry
    rw [h.expiry]
  lookups := h.lookups

theorem Alike.uncache (h : Alike capacity s t) (key : String) :
    Alike capacity (s.uncache key) (t.uncache key) where
  username := h.username
  passwordHash := h.passwordHash
  left := h.left
  right := h.right
  expiry := h.expiry
  lookups k := by
    have hs := LRUCache.get?_delete s.cache key k
    rw [h.lookups k] at hs
    exact hs.trans (LRUCache.get?_delete t.cache key k).symm

/-- What an eviction leaves of a cache that holds one key. -/
theorem get?_roomFor_one {c : LRUCache} (hc : c.capacity = 1) (hf : c.isFull = true) (k : String) :
    c.roomFor.get? k = none := by
  obtain ⟨⟨a, v⟩, hp⟩ := LRUCache.items_of_full_one hc hf
  have hd : c.data.get? k = if k = a then some v else none := by
    by_cases hk : k = a
    · rw [if_pos hk, Dict.get?_eq_some, hp, hk]
      simp
    · rw [if_neg hk, Dict.get?_eq_none, hp]
      simp [hk]
  rw [LRUCache.roomFor, if_pos hf, Dict.get?_popFirst hp, hd]
  split <;> simp_all

/-- Storing a pair keeps stores alike unless it evicts a key that depends
on the order of use. -/
theorem Alike.put (h : Alike capacity s t) {key : String} (value : String)
    (hroom : capacity ≤ 1 ∨ (s.cache.data.get? key = none → s.cache.isFull = false)) :
    Alike capacity (s.put key value) (t.put key value) where
  username := h.username
  passwordHash := h.passwordHash
  left := by
    rw [← h.left]
    exact LRUCache.capacity_insert _ _ _
  right := by
    rw [← h.right]
    exact LRUCache.capacity_insert _ _ _
  expiry := h.expiry
  lookups k := by
    simp only [Store.put]
    by_cases hr : s.cache.data.get? key = none → s.cache.isFull = false
    · have hr' : t.cache.data.get? key = none → t.cache.isFull = false := by
        rw [← h.lookups, ← h.isFull]
        exact hr
      rw [LRUCache.get?_insert_of_room _ _ hr, LRUCache.get?_insert_of_room _ _ hr', h.lookups]
    · have hcap := hroom.resolve_right hr
      have hone : capacity = 1 := by
        have := s.cache.positive
        rw [h.left] at this
        omega
      have hn : s.cache.data.get? key = none := by
        cases hk : s.cache.data.get? key with
        | none => rfl
        | some v => exact absurd (fun h' => by rw [hk] at h'; cases h') hr
      have hf : s.cache.isFull = true := by
        cases hk : s.cache.isFull with
        | true => rfl
        | false => exact absurd (fun _ => hk) hr
      have hn' : t.cache.data.get? key = none := h.lookups key ▸ hn
      rw [LRUCache.get?_insert, LRUCache.get?_insert, Dict.contains_eq_false.mpr hn,
        Dict.contains_eq_false.mpr hn', get?_roomFor_one (h.left.trans hone) hf,
        get?_roomFor_one (h.right.trans hone) (h.isFull ▸ hf)]
      simp

theorem Alike.sweep (h : Alike capacity s t) (atMs : Int) :
    (s.sweep atMs).1 = (t.sweep atMs).1 ∧ Alike capacity (s.sweep atMs).2 (t.sweep atMs).2 := by
  have hdue : s.due atMs = t.due atMs := by rw [Store.due, Store.due, h.expiry]
  unfold Store.sweep
  rw [hdue]
  clear hdue
  generalize t.due atMs = l
  generalize 0 = n
  induction l generalizing s t n with
  | nil => exact ⟨rfl, h⟩
  | cons k l ih =>
      have hd : (s.cache.delete k).1 = (t.cache.delete k).1 := by
        simp [LRUCache.delete, Dict.contains, h.lookups k]
      simp only [List.foldl_cons, hd]
      exact ih ((h.uncache k).setExpiry k none) _

end Alike

/-! ## One entry on two replicas -/

/-- Verbs do not see the order of use, but for evictions. -/
theorem storeSim_alike (capacity : Nat) : StoreSim capacity (Alike capacity)
    (fun s key => capacity ≤ 1 ∨ (s.cache.data.get? key = none → s.cache.isFull = false)) where
  fresh _ _ hc := alike_fresh _ _ hc
  peek h := h.peek
  touch h := h.touch
  store h key value expireAt _ hroom := (h.put value hroom).setExpiry key expireAt
  drop h k := (h.uncache k).setExpiry k none
  expire h := h.setExpiry
  sweep h := h.sweep

/-- No SET of a new key by this verb finds a full cache. -/
def Verb.HasRoom (username : String) (stores : Stores) : Verb → Prop
  | .set key _ _ => ∀ s, stores.get? username = some s → key ≠ "" →
      s.cache.data.get? key = none → s.cache.isFull = false
  | _ => True

theorem ram_alike {capacity : Nat} {username : String} {S T : Stores} {verb : Verb}
    (h : Dict.Rel (Alike capacity) S T) (hroom : capacity ≤ 1 ∨ verb.HasRoom username S) :
    SameOutcome (fun p q => p.1 = q.1 ∧ Dict.Rel (Alike capacity) p.2 q.2)
      (verb.ram username capacity S) (verb.ram username capacity T) := by
  refine (storeSim_alike capacity).verb h ?_
  intro key value expireAt s hv hs hk
  subst hv
  exact hroom.imp_right fun hr => hr s hs hk

theorem ramApply_alike {capacity : Nat} {S T : Stores} {sessions : Sessions} {entry : LogEntry}
    (h : Dict.Rel (Alike capacity) S T)
    (hroom : capacity ≤ 1 ∨ (Reaches sessions entry → ∀ verb, entry.verb = .ok verb →
      verb.HasRoom entry.username S)) :
    SameOutcome (fun p q => p.1 = q.1 ∧ Dict.Rel (Alike capacity) p.2.1 q.2.1 ∧ p.2.2 = q.2.2)
      (ramApply capacity entry S sessions) (ramApply capacity entry T sessions) := by
  refine applyWith_rel h fun hr => ?_
  unfold ramCommand
  cases hv : entry.verb with
  | error e => rfl
  | ok verb => exact ram_alike h (hroom.imp_right fun h' => h' hr verb hv)

/-! ## Whole runs -/

/-- Two machines in RAM that differ in the order of use at most. -/
structure Twin (m m' : CacheStateMachine) : Prop where
  left : m.useDb = false
  right : m'.useDb = false
  capacity : m.capacity = m'.capacity
  sessions : m.sessions = m'.sessions
  stores : Dict.Rel (Alike m.capacity) m.stores m'.stores

/-- A SET of a new key that finds its user's cache full. -/
def Evicts (m : CacheStateMachine) (entry : LogEntry) : Prop :=
  Reaches m.sessions entry ∧ ∃ key value expireAt s,
    entry.verb = .ok (.set key value expireAt) ∧ m.stores.get? entry.username = some s ∧
    key ≠ "" ∧ s.cache.data.get? key = none ∧ s.cache.isFull = true

/-- No entry of the log, applied from `m` without reads, evicts a key. -/
def EvictsNothing : CacheStateMachine → List LogEntry → Prop
  | _, [] => True
  | m, entry :: rest => ¬ Evicts m entry ∧
      match (apply entry).run m with
      | .ok _ m' => EvictsNothing m' rest
      | .error _ _ => True

/-- Without a database, capacity `capacity`, no users yet. -/
def ramMachineOf (capacity : Nat) : CacheStateMachine := { useDb := false, capacity }

/-- The same users with the same hashes, the same stored keys with the same
values and expiry times, and the same sessions. -/
def SameData (m m' : CacheStateMachine) : Prop :=
  m.sessions = m'.sessions ∧
  ∀ username, Option.Rel (fun s t => s.passwordHash = t.passwordHash ∧ ∀ k, s.peek k = t.peek k)
    (m.stores.get? username) (m'.stores.get? username)

/-- Any two replicas that have applied the same part of the log, each with
reads of its own, have returned the same results and hold the same data. -/
def ReplicasAgree (glob : String → String → Bool) (capacity : Nat) (log : List LogEntry) : Prop :=
  ∀ ops₁ ops₂ : List Op, appliedEntries ops₁ <+: log → appliedEntries ops₂ = appliedEntries ops₁ →
    applyOutcomes (trace glob (ramMachineOf capacity) ops₁).1
      = applyOutcomes (trace glob (ramMachineOf capacity) ops₂).1 ∧
    SameData (trace glob (ramMachineOf capacity) ops₁).2
      (trace glob (ramMachineOf capacity) ops₂).2

theorem not_evicts_hasRoom {m : CacheStateMachine} {entry : LogEntry} (h : ¬ Evicts m entry) :
    Reaches m.sessions entry → ∀ verb, entry.verb = .ok verb →
      verb.HasRoom entry.username m.stores := by
  intro hr verb hv
  cases verb with
  | set key value expireAt =>
      intro s hs hk hn
      cases hf : s.cache.isFull with
      | false => rfl
      | true => exact absurd ⟨hr, key, value, expireAt, s, hv, hs, hk, hn, hf⟩ h
  | _ => trivial

theorem EvictsNothing.take {log log' : List LogEntry} {m : CacheStateMachine}
    (h : EvictsNothing m (log ++ log')) : EvictsNothing m log := by
  induction log generalizing m with
  | nil => trivial
  | cons entry log ih =>
      refine ⟨h.1, ?_⟩
      have h₂ := h.2
      split at h₂
      · exact ih h₂
      · trivial

section Runs

variable {glob : String → String → Bool}

/-- A replica with reads does what the same replica without reads does. -/
theorem twin_trace (glob : String → String → Bool) {m p : CacheStateMachine} (h : Twin p m)
    (ops : List Op)
    (hroom : p.capacity ≤ 1 ∨ EvictsNothing p (appliedEntries ops)) :
    applyOutcomes (trace glob m ops).1
      = applyOutcomes (trace glob p ((appliedEntries ops).map Op.apply)).1 ∧
    Twin (trace glob p ((appliedEntries ops).map Op.apply)).2 (trace glob m ops).2 := by
  induction ops generalizing m p with
  | nil => exact ⟨rfl, h⟩
  | cons op ops ih =>
      cases hop : op.entry? with
      | none =>
          have happ : appliedEntries (op :: ops) = appliedEntries ops := by
            simp [appliedEntries, hop]
          obtain ⟨out, stores, hrun, hof, hst⟩ := run_read_ram h.right glob hop
          have htw : Twin p { m with stores } := by
            refine ⟨h.left, h.right, h.capacity, h.sessions, ?_⟩
            rcases hst with rfl | ⟨username, key, t, ht, rfl⟩
            · exact h.stores
            · rcases h.stores.get?_cases username with ⟨-, hn⟩ | ⟨s, t', hs, ht', hst⟩
              · rw [ht] at hn
                cases hn
              · rw [ht] at ht'
                obtain rfl := Option.some.inj ht'
                have hset := h.stores.set username (hst.touch_right key)
                rwa [Dict.set_of_get? hs] at hset
          rw [happ] at hroom ⊢
          rw [trace_cons_ok hrun, applyOutcomes, List.filter_cons_of_neg (by simp [hof])]
          exact ih htw hroom
      | some entry =>
          obtain rfl : op = .apply entry := by
            cases op <;> cases hop
            rfl
          have happ : appliedEntries (.apply entry :: ops) = entry :: appliedEntries ops := rfl
          rw [happ] at hroom ⊢
          rw [List.map_cons]
          have hstep := ramApply_alike h.stores
            (hroom.imp_right fun hr => not_evicts_hasRoom hr.1)
          have hp := run_apply_ram h.left entry
          have hm := run_apply_ram h.right entry
          rw [← h.capacity, ← h.sessions] at hm
          generalize ramApply p.capacity entry p.stores p.sessions = x at hstep hp
          generalize ramApply p.capacity entry m.stores p.sessions = y at hstep hm
          cases x with
          | error e =>
              cases y with
              | ok q => exact hstep.elim
              | error e' =>
                  obtain rfl : e = e' := hstep
                  have hp' : ((Op.apply entry).run glob).run p = .error e p := by
                    rw [Op.run, EStateM.run_bind, hp]
                  have hm' : ((Op.apply entry).run glob).run m = .error e m := by
                    rw [Op.run, EStateM.run_bind, hm]
                  rw [trace_cons_error hp', trace_cons_error hm']
                  exact ⟨rfl, h⟩
          | ok q =>
              cases y with
              | error e' => exact hstep.elim
              | ok q' =>
                  obtain ⟨hr, hs, hss⟩ := hstep
                  have hp' : ((Op.apply entry).run glob).run p
                      = .ok (.applied q.1) { p with stores := q.2.1, sessions := q.2.2 } := by
                    rw [Op.run, EStateM.run_bind, hp]
                    rfl
                  have hm' : ((Op.apply entry).run glob).run m
                      = .ok (.applied q'.1) { m with stores := q'.2.1, sessions := q'.2.2 } := by
                    rw [Op.run, EStateM.run_bind, hm, h.capacity]
                    rfl
                  have htw : Twin { p with stores := q.2.1, sessions := q.2.2 }
                      { m with stores := q'.2.1, sessions := q'.2.2 } :=
                    ⟨h.left, h.right, h.capacity, hss, hs⟩
                  have hroom' : p.capacity ≤ 1 ∨
                      EvictsNothing { p with stores := q.2.1, sessions := q.2.2 }
                        (appliedEntries ops) := by
                    refine hroom.imp_right fun he => ?_
                    have he₂ := he.2
                    rw [hp] at he₂
                    exact he₂
                  obtain ⟨h₁, h₂⟩ := ih htw hroom'
                  rw [trace_cons_ok hp', trace_cons_ok hm', applyOutcomes, applyOutcomes,
                    List.filter_cons_of_pos rfl, List.filter_cons_of_pos rfl, hr]
                  exact ⟨congrArg _ h₁, h₂⟩

/-- Two twins of one machine hold the same data. -/
theorem Twin.sameData {p m m' : CacheStateMachine} (h : Twin p m) (h' : Twin p m') :
    SameData m m' := by
  refine ⟨h.sessions.symm.trans h'.sessions, fun username => ?_⟩
  rcases h.stores.get?_cases username with ⟨hp, hm⟩ | ⟨s, t, hp, hm, hst⟩
  · rcases h'.stores.get?_cases username with ⟨-, hm'⟩ | ⟨s', -, hp', -, -⟩
    · rw [hm, hm']
      exact .none
    · rw [hp] at hp'
      cases hp'
  · rcases h'.stores.get?_cases username with ⟨hp', -⟩ | ⟨s', t', hp', hm', hst'⟩
    · rw [hp] at hp'
      cases hp'
    · rw [hp] at hp'
      obtain rfl := Option.some.inj hp'
      rw [hm, hm']
      exact .some ⟨hst.passwordHash.symm.trans hst'.passwordHash,
        fun k => (hst.peek k).symm.trans (hst'.peek k)⟩

theorem twin_ramMachineOf (capacity : Nat) : Twin (ramMachineOf capacity) (ramMachineOf capacity) :=
  ⟨rfl, rfl, rfl, rfl, Dict.rel_empty⟩

/-- The first entry of a log that evicts a key. -/
theorem exists_first_eviction {m : CacheStateMachine} (hm : m.useDb = false)
    {log : List LogEntry} (h : ¬ EvictsNothing m log) :
    ∃ done entry rest rs m', log = done ++ entry :: rest ∧ EvictsNothing m done ∧
      (applyLog done).run m = .ok rs m' ∧ m'.capacity = m.capacity ∧ Evicts m' entry := by
  induction log generalizing m with
  | nil => exact absurd trivial h
  | cons entry log ih =>
      by_cases he : Evicts m entry
      · exact ⟨[], entry, log, [], m, rfl, trivial, rfl, rfl, he⟩
      · have ha := run_apply_ram hm entry
        cases hr : ramApply m.capacity entry m.stores m.sessions with
        | error e =>
            rw [hr] at ha
            exact absurd ⟨he, by rw [ha]; trivial⟩ h
        | ok q =>
            rw [hr] at ha
            have hrest : ¬ EvictsNothing { m with stores := q.2.1, sessions := q.2.2 } log := by
              intro hn
              exact h ⟨he, by rw [ha]; exact hn⟩
            obtain ⟨done, entry', rest, rs, m', hlog, hn, hrun, hcap, hev⟩ :=
              ih (m := { m with stores := q.2.1, sessions := q.2.2 }) hm hrest
            refine ⟨entry :: done, entry', rest, q.1 :: rs, m', by rw [hlog]; rfl,
              ⟨he, by rw [ha]; exact hn⟩, ?_, hcap, hev⟩
            rw [applyLog, EStateM.run_bind, ha]
            simp only [EStateM.run_bind, hrun]
            rfl

/-- A SET that evicts a key returns, and puts its pair into the store. -/
theorem run_apply_evicting {m : CacheStateMachine} (hm : m.useDb = false) {entry : LogEntry}
    (hr : Reaches m.sessions entry) {key value : String} {expireAt : Option Int} {s : Store}
    (hv : entry.verb = .ok (.set key value expireAt))
    (hs : m.stores.get? entry.username = some s) (hk : key ≠ "") :
    ∃ r sessions, (apply entry).run m = .ok r { m with
      stores := m.stores.set entry.username ((s.put key value).setExpiry key expireAt)
      sessions } := by
  have hc : ramCommand m.capacity entry m.stores = .ok (.bool true,
      m.stores.set entry.username ((s.put key value).setExpiry key expireAt)) := by
    simp only [ramCommand, hv, Verb.ram, hs, hk, if_false]
  rw [run_apply_ram hm, ramApply, applyWith, hc]
  rcases hr with he | ⟨id, hid, ha⟩
  · rw [if_pos he]
    exact ⟨_, _, rfl⟩
  · unfold LogEntry.request at hid
    split at hid
    · cases hid
    · next hne =>
        cases hp : parseRequestId entry.requestId with
        | error e => simp [hp, Except.toOption] at hid
        | ok id' =>
            obtain rfl : id' = id := by simpa [hp, Except.toOption] using hid
            rw [if_neg hne]
            simp only [ha]
            exact ⟨_, _, rfl⟩

/-- The cache of two keys or more after an eviction: without and with a
touch of its oldest key before. The second oldest key stays or goes. -/
theorem peek_evicting {s : Store} {a b va vb key : String} {l : List (String × String)}
    (value : String) (expireAt : Option Int) (hd : s.cache.data.items = (a, va) :: (b, vb) :: l)
    (hnew : s.cache.data.get? key = none) (hfull : s.cache.isFull = true) :
    ((s.put key value).setExpiry key expireAt).peek b ≠ none ∧
    (((s.touch a).put key value).setExpiry key expireAt).peek b = none := by
  have hb : s.cache.data.get? b = some vb := by
    rw [Dict.get?_eq_some, hd]
    simp
  have hbk : b ≠ key := by
    rintro rfl
    rw [hnew] at hb
    cases hb
  have hba : b ≠ a := by
    have hn := s.cache.data.nodup
    rw [hd] at hn
    simp only [List.map_cons, List.nodup_cons, List.mem_cons, not_or] at hn
    exact fun h => hn.1.1 h.symm
  have hkeep : (s.put key value).cache.data.get? b = some vb := by
    simp only [Store.put]
    rw [LRUCache.get?_insert, if_neg hbk, Dict.contains_eq_false.mpr hnew, LRUCache.roomFor,
      if_pos hfull, Dict.get?_popFirst hd, if_neg hba, hb]
    rfl
  have hmove : (s.touch a).cache.data.items = (b, vb) :: (l ++ [(a, va)]) :=
    Dict.items_moveToEnd_first hd
  have hfull' : (s.touch a).cache.isFull = true := by
    have hsize : (s.touch a).cache.data.size = s.cache.data.size := by
      rw [Dict.size, Dict.size, hmove, hd]
      simp
    have hle : s.cache.capacity ≤ s.cache.data.size := of_decide_eq_true hfull
    exact decide_eq_true (hsize ▸ hle)
  have hnew' : (s.touch a).cache.data.get? key = none :=
    (LRUCache.get?_get s.cache a key).trans hnew
  have hgone : ((s.touch a).put key value).cache.data.get? b = none := by
    simp only [Store.put]
    rw [LRUCache.get?_insert, if_neg hbk, Dict.contains_eq_false.mpr hnew', LRUCache.roomFor,
      if_pos hfull', Dict.get?_popFirst hmove, if_pos rfl]
    rfl
  constructor
  · rw [Store.peek, show ((s.put key value).setExpiry key expireAt).cache.data.get? b = some vb
      from hkeep]
    simp
  · rw [Store.peek, show (((s.touch a).put key value).setExpiry key expireAt).cache.data.get? b
      = none from hgone]
    rfl

/-- Replicas agree on a log, whatever each of them reads, exactly if a
cache holds one key at most or the log never evicts a key. -/
theorem replicas_agree_iff (capacity : Nat) (log : List LogEntry) :
    ReplicasAgree glob capacity log ↔
      capacity ≤ 1 ∨ EvictsNothing (ramMachineOf capacity) log := by
  constructor
  · intro h
    by_contra hn
    obtain ⟨hcap, hev⟩ := not_or.mp hn
    obtain ⟨done, entry, rest, rs, m, hlog, hquiet, hrun, hmcap, hr, key, value, expireAt, s, hv,
      hs, hk, hnew, hfull⟩ := exists_first_eviction rfl hev
    -- the state before the eviction is a twin of itself
    have htw := (twin_trace glob (twin_ramMachineOf capacity) (done.map Op.apply)
      (Or.inr (by rw [appliedEntries_map]; exact hquiet))).2
    have hm : (trace glob (ramMachineOf capacity) (done.map Op.apply)).2 = m := by
      rw [← List.append_nil (done.map Op.apply), trace_applyLog hrun]
      rfl
    rw [appliedEntries_map, hm] at htw
    have hcaps : s.cache.capacity = m.capacity := by
      rcases htw.stores.get?_cases entry.username with ⟨h', -⟩ | ⟨s', t', h', -, hst⟩
      · rw [hs] at h'
        cases h'
      · rw [hs] at h'
        obtain rfl := Option.some.inj h'
        exact hst.left
    obtain ⟨a, va, b, vb, l, hd⟩ : ∃ a va b vb l, s.cache.data.items = (a, va) :: (b, vb) :: l := by
      have hlen : 2 ≤ s.cache.data.items.length := by
        have hc : m.capacity = capacity := hmcap
        have hle : s.cache.capacity ≤ s.cache.data.items.length := of_decide_eq_true hfull
        omega
      match hi : s.cache.data.items, hlen with
      | (a, va) :: (b, vb) :: l, _ => exact ⟨a, va, b, vb, l, rfl⟩
    -- the second replica reads the oldest key before the entry
    obtain ⟨r₁, ss₁, h₁⟩ := run_apply_evicting htw.left hr hv hs hk
    obtain ⟨v, hget⟩ := run_getValue_ram htw.left hs a none 0
    have hs' : ({ m with stores := m.stores.set entry.username (s.touch a) } :
        CacheStateMachine).stores.get? entry.username = some (s.touch a) := by
      simp
    have hdb : ({ m with stores := m.stores.set entry.username (s.touch a) } :
        CacheStateMachine).useDb = false := htw.left
    obtain ⟨r₂, ss₂, h₂⟩ := run_apply_evicting hdb hr hv hs' hk
    have hop₁ : ((Op.apply entry).run glob).run m = .ok (.applied r₁) { m with
        stores := m.stores.set entry.username ((s.put key value).setExpiry key expireAt)
        sessions := ss₁ } := by
      rw [Op.run, EStateM.run_bind, h₁]
      rfl
    have hop₂ : ((Op.get entry.username a none 0).run glob).run m = .ok (.value v)
        { m with stores := m.stores.set entry.username (s.touch a) } := by
      rw [Op.run, EStateM.run_bind, hget]
      rfl
    have hop₃ : ((Op.apply entry).run glob).run
        { m with stores := m.stores.set entry.username (s.touch a) } = .ok (.applied r₂) { m with
        stores := (m.stores.set entry.username (s.touch a)).set entry.username
          (((s.touch a).put key value).setExpiry key expireAt)
        sessions := ss₂ } := by
      rw [Op.run, EStateM.run_bind, h₂]
      rfl
    have hdone : appliedEntries (done.map Op.apply ++ [.apply entry]) = done ++ [entry] := by
      rw [appliedEntries, List.filterMap_append]
      exact congrArg (· ++ [entry]) (appliedEntries_map done)
    have hdone' : appliedEntries (done.map Op.apply ++ [.get entry.username a none 0, .apply entry])
        = done ++ [entry] := by
      rw [appliedEntries, List.filterMap_append]
      exact congrArg (· ++ [entry]) (appliedEntries_map done)
    have hagree := (h (done.map Op.apply ++ [.apply entry])
      (done.map Op.apply ++ [.get entry.username a none 0, .apply entry])
      (by rw [hdone, hlog]; exact ⟨rest, by simp⟩) (by rw [hdone, hdone'])).2.2 entry.username
    rw [trace_applyLog hrun, trace_applyLog hrun, trace_cons_ok hop₁, trace_cons_ok hop₂,
      trace_cons_ok hop₃] at hagree
    simp only [trace, Dict.get?_set, if_true] at hagree
    cases hagree with
    | some hst =>
        obtain ⟨hne, heq⟩ := peek_evicting value expireAt hd hnew hfull
        exact hne ((hst.2 b).trans heq)
  · intro h ops₁ ops₂ hpre heq
    have hroom : (ramMachineOf capacity).capacity ≤ 1 ∨
        EvictsNothing (ramMachineOf capacity) (appliedEntries ops₁) := by
      obtain ⟨rest, hrest⟩ := hpre
      exact h.imp_right fun hn => EvictsNothing.take (hrest ▸ hn)
    obtain ⟨ho₁, ht₁⟩ := twin_trace glob (twin_ramMachineOf capacity) ops₁ hroom
    obtain ⟨ho₂, ht₂⟩ := twin_trace glob (twin_ramMachineOf capacity) ops₂
      (by rw [heq]; exact hroom)
    rw [heq] at ho₂ ht₂
    exact ⟨ho₁.trans ho₂.symm, ht₁.sameData ht₂⟩

end Runs

/-- Three keys for a cache of two, then a deletion of the first. -/
def threeKeys : List LogEntry :=
  [⟨1, 1, .write "SIGNUP h", "zoe", ""⟩, ⟨1, 2, .write "SET a 1", "zoe", ""⟩,
   ⟨1, 3, .write "SET b 2", "zoe", ""⟩, ⟨1, 4, .write "SET c 3", "zoe", ""⟩,
   ⟨1, 5, .write "DELETE a 9", "zoe", ""⟩]

/-- The same log with a read of the first key before the third is set. -/
def threeKeysRead : List Op :=
  (threeKeys.take 3).map Op.apply ++ .get "zoe" "a" none 5 :: (threeKeys.drop 3).map Op.apply

/-- The deletion finds the key on the replica that served the read only. -/
theorem replicas_disagree :
    appliedEntries threeKeysRead = threeKeys ∧
    (applyOutcomes (trace (fun _ _ => true) (ramMachineOf 2) (threeKeys.map Op.apply)).1).getLast?
      = some (.ok (.applied (.bool false))) ∧
    (applyOutcomes (trace (fun _ _ => true) (ramMachineOf 2) threeKeysRead).1).getLast?
      = some (.ok (.applied (.bool true))) := by
  decide +kernel

end KvCache
