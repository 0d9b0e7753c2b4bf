import KvCache.Reference

/-!
# The RAM cache in front of the database

With the database on, a store holds some of a user's keys. `Shown` says
that what it holds is what the database holds; every method keeps that
through hits, misses that warm the cache, evictions and loads, so results
never depend on what happens to be in RAM (`ram_is_invisible`). Expiry
times of keys that are not in RAM mean nothing: `Store.peek` does not see
them.
-/

namespace KvCache

open StateWp

/-! ## Coherence -/

/-- A store of a user holds only what the database holds. -/
structure Store.ShownBy (s : Store) (db : Database) (username : String) (capacity : Nat) :
    Prop where
  name : s.username = username
  hash : db.users.get? username = some s.passwordHash
  size : s.cache.capacity = capacity
  /-- every key in RAM has the value and expiry time of its row -/
  keys : ∀ k item, s.peek k = some item → db.reference.entries username k = some item

/-- RAM holds only what the database holds. -/
def Shown (m : CacheStateMachine) : Prop :=
  ∀ u s, m.stores.get? u = some s → s.ShownBy m.db u m.capacity

/-- No row has an empty key. -/
def Database.Keyed (db : Database) : Prop := ∀ u, db.reference.entries u "" = none

/-- A machine in database mode whose RAM is a view of the database, and
whose database calls succeed. -/
structure Coherent (m : CacheStateMachine) : Prop where
  useDb : m.useDb = true
  capacity : 0 < m.capacity
  quiet : m.faults = []
  quietSessions : m.sessionFaults = []
  keyed : m.db.Keyed
  shown : Shown m

section Coherent

variable {m : CacheStateMachine} {username key : String}

/-- A call on a machine without faults. -/
theorem wp_dbCall_quiet {α : Type} {f : Database → Except SmError (α × Database)} {a : α}
    {db : Database} {Q : α → CacheStateMachine → Prop} {R : SmError → CacheStateMachine → Prop}
    (hq : m.faults = []) (hf : f m.db = .ok (a, db)) :
    wp (dbCall f) Q R m ↔ Q a { m with db } := by
  unfold dbCall
  simp only [wp_bind, wp_get, wp_set, hq, List.headD_nil, Bool.false_eq_true, if_false, hf,
    List.tail_nil]
  rw [wp_modify, ← hq]
  rfl

theorem wp_dbRead_quiet {α : Type} {f : Database → α} {Q : α → CacheStateMachine → Prop}
    {R : SmError → CacheStateMachine → Prop} (hq : m.faults = []) :
    wp (dbRead f) Q R m ↔ Q (f m.db) m :=
  wp_dbCall_quiet hq rfl

theorem wp_dbWrite_quiet {f : Database → Database} {Q : Unit → CacheStateMachine → Prop}
    {R : SmError → CacheStateMachine → Prop} (hq : m.faults = []) :
    wp (dbWrite f) Q R m ↔ Q () { m with db := f m.db } :=
  wp_dbCall_quiet hq rfl

/-- A call that answers and changes the tables. -/
theorem wp_dbCall_pair {α : Type} {f : Database → α × Database}
    {Q : α → CacheStateMachine → Prop} {R : SmError → CacheStateMachine → Prop}
    (hq : m.faults = []) :
    wp (dbCall fun db => .ok (f db)) Q R m ↔ Q (f m.db).1 { m with db := (f m.db).2 } :=
  wp_dbCall_quiet hq rfl

/-! ## Loading a store -/

theorem peek_put (s : Store) (key value k : String) :
    (s.put key value).peek k =
      ((s.cache.insert key value).data.get? k).map fun v => (v, s.expiry.get? k) := rfl

/-- What a cache holds after an insertion was inserted or was there. -/
theorem get?_insert_cases {c : LRUCache} {key value k v : String}
    (h : (c.insert key value).data.get? k = some v) :
    (k = key ∧ v = value) ∨ (k ≠ key ∧ c.data.get? k = some v) := by
  rw [LRUCache.get?_insert] at h
  split at h
  · next hk => exact Or.inl ⟨hk, (Option.some.inj h).symm⟩
  · next hk =>
      refine Or.inr ⟨hk, ?_⟩
      split at h
      · exact h
      · unfold LRUCache.roomFor at h
        split at h
        · rw [Dict.get?_eq_some] at h ⊢
          exact List.mem_of_mem_tail h
        · exact h

theorem wp_fill {l : List (String × String)} {store : Store} (hl : ∀ p ∈ l, p.1 ≠ "") :
    wp (store.fill l) (fun s m' => m' = m ∧ s.username = store.username ∧
        s.passwordHash = store.passwordHash ∧ s.cache.capacity = store.cache.capacity ∧
        ∀ k v, s.cache.data.get? k = some v → (k, v) ∈ l ∨ store.cache.data.get? k = some v)
      (fun _ _ => False) m := by
  induction l generalizing store with
  | nil => exact ⟨rfl, rfl, rfl, rfl, fun k v h => Or.inr h⟩
  | cons p l ih =>
      unfold Store.fill Store.cacheSet
      rw [wp_bind, if_neg (hl p (by simp)), wp_pure]
      refine wp_mono (ih fun q hq => hl q (by simp [hq])) (fun s m' h => ?_) fun _ _ h => h
      obtain ⟨h₁, h₂, h₃, h₄, h₅⟩ := h
      refine ⟨h₁, h₂, h₃, h₄.trans (LRUCache.capacity_insert _ _ _), fun k v hk => ?_⟩
      rcases h₅ k v hk with hm | hm
      · exact Or.inl (List.mem_cons_of_mem _ hm)
      · rcases get?_insert_cases hm with ⟨rfl, rfl⟩ | ⟨-, hm⟩
        · exact Or.inl (by simp)
        · exact Or.inr hm

/-- A cache filled with loaded entries, with the expiry times that go with
them, holds only what the database holds. -/
theorem peek_loaded {db : Database} {s : Store} {capacity : Nat}
    (hfill : ∀ k v, s.cache.data.get? k = some v →
      (db.getAllEntries username capacity).get? k = some v)
    (hexpiry : s.expiry = (db.getExpiries username).filter fun p =>
      (db.getAllEntries username capacity).contains p.1)
    {k : String} {item : String × Option Int} (hpeek : s.peek k = some item) :
    db.reference.entries username k = some item := by
  obtain ⟨v, hv, rfl⟩ := Option.map_eq_some_iff.mp hpeek
  have hload := hfill k v hv
  obtain ⟨row, hrow, rfl⟩ := Database.get?_getAllEntries hload
  refine Database.entries_eq_some.mpr ⟨row, hrow, rfl, ?_⟩
  have hfilter : s.expiry.get? k = (db.getExpiries username).get? k := by
    rw [hexpiry]
    refine Dict.get?_congr fun t => ?_
    rw [Dict.mem_filter]
    have hc : (db.getAllEntries username capacity).contains k = true := by
      rw [Dict.contains, hload]
      rfl
    simp [hc]
  have he := Database.get?_getExpiries db username k
  rw [hrow] at he
  exact (hfilter.trans he).symm

/-- A store read from the database shows the database. -/
theorem wp_readStore (hc : 0 < m.capacity) (hq : m.faults = []) (hk : m.db.Keyed)
    {passwordHash : String} (hu : m.db.users.get? username = some passwordHash) :
    wp (readStore username passwordHash)
      (fun s m' => m' = m ∧ s.passwordHash = passwordHash ∧ s.ShownBy m.db username m.capacity)
      (fun _ _ => False) m := by
  unfold readStore newStore
  simp only [wp_bind, wp_get, hc, dite_true, wp_pure]
  rw [wp_dbRead_quiet hq, wp_bind]
  have hblank : ∀ p ∈ (m.db.getAllEntries username m.capacity).items, p.1 ≠ "" := by
    rintro ⟨k, v⟩ hp hempty
    obtain ⟨row, hrow, -⟩ := Database.get?_getAllEntries (Dict.get?_eq_some.mpr hp)
    simp only at hempty
    subst hempty
    have := hk username
    rw [Database.entries_reference, hrow] at this
    cases this
  refine wp_mono (wp_fill hblank) (fun s m' h => ?_) fun _ _ h => h
  obtain ⟨rfl, h₂, h₃, h₄, h₅⟩ := h
  rw [wp_bind, wp_dbRead_quiet hq, wp_pure]
  refine ⟨rfl, h₃, h₂, ?_, h₄, fun k item hpeek => peek_loaded ?_ rfl hpeek⟩
  · rw [hu]
    exact congrArg some h₃.symm
  · intro k v hv
    rcases h₅ k v hv with hm | hm
    · exact Dict.get?_eq_some.mpr hm
    · cases hm

/-! ## What a store shows after an operation -/

theorem get?_setExpiry (s : Store) (key : String) (expireAt : Option Int) (k : String) :
    (s.setExpiry key expireAt).expiry.get? k = if k = key then expireAt else s.expiry.get? k := by
  unfold Store.setExpiry
  cases expireAt <;> simp

@[simp] theorem peek_touch (s : Store) (key k : String) : (s.touch key).peek k = s.peek k := by
  have h : (s.touch key).cache.data.get? k = s.cache.data.get? k := LRUCache.get?_get _ _ _
  rw [Store.peek, h]
  rfl

theorem peek_setExpiry (s : Store) (key : String) (expireAt : Option Int) (k : String) :
    (s.setExpiry key expireAt).peek k
      = if k = key then (s.peek k).map fun p => (p.1, expireAt) else s.peek k := by
  have h : (s.setExpiry key expireAt).cache = s.cache := rfl
  rw [Store.peek, h, Store.peek, get?_setExpiry]
  cases s.cache.data.get? k with
  | none => simp
  | some v => by_cases hk : k = key <;> simp [hk]

theorem peek_uncache (s : Store) (key k : String) :
    (s.uncache key).peek k = if k = key then none else s.peek k := by
  have h : (s.uncache key).cache.data.get? k = if k = key then none else s.cache.data.get? k :=
    LRUCache.get?_delete _ _ _
  rw [Store.peek, h]
  split
  · rfl
  · rfl

theorem peek_store {s : Store} {key value k : String} {expireAt : Option Int}
    {item : String × Option Int} (h : ((s.put key value).setExpiry key expireAt).peek k = some item) :
    (k = key ∧ item = (value, expireAt)) ∨ (k ≠ key ∧ s.peek k = some item) := by
  rw [peek_setExpiry] at h
  split at h
  · next hk =>
      obtain ⟨p, hp, rfl⟩ := Option.map_eq_some_iff.mp h
      obtain ⟨v, hv, rfl⟩ := Option.map_eq_some_iff.mp hp
      rcases get?_insert_cases hv with ⟨-, rfl⟩ | ⟨hne, -⟩
      · exact Or.inl ⟨hk, rfl⟩
      · exact absurd hk hne
  · next hk =>
      obtain ⟨v, hv, rfl⟩ := Option.map_eq_some_iff.mp h
      rcases get?_insert_cases hv with ⟨hk', -⟩ | ⟨-, hv⟩
      · exact absurd hk' hk
      · refine Or.inr ⟨hk, ?_⟩
        rw [Store.peek, hv]
        rfl

/-- A sweep takes the due keys and nothing else. -/
theorem peek_sweep (s : Store) (atMs : Int) (k : String) :
    (s.sweep atMs).2.peek k = if k ∈ s.due atMs then none else s.peek k := by
  unfold Store.sweep
  generalize s.due atMs = l
  generalize 0 = n
  induction l generalizing s n with
  | nil => simp
  | cons j l ih =>
      rw [List.foldl_cons, ih, peek_setExpiry, peek_uncache]
      by_cases hk : k = j <;> simp [hk]

theorem mem_due {s : Store} {atMs : Int} {k : String} :
    k ∈ s.due atMs ↔ ∃ t, s.expiry.get? k = some t ∧ t ≤ atMs := by
  simp only [Store.due, List.mem_map, List.mem_filter, Dict.get?_eq_some, decide_eq_true_eq]
  constructor
  · rintro ⟨⟨k', t⟩, ⟨hp, ht⟩, rfl⟩
    exact ⟨t, hp, ht⟩
  · rintro ⟨t, hp, ht⟩
    exact ⟨(k, t), ⟨hp, ht⟩, rfl⟩

theorem cache_sweep (s : Store) (atMs : Int) :
    (s.sweep atMs).2.username = s.username ∧ (s.sweep atMs).2.passwordHash = s.passwordHash ∧
      (s.sweep atMs).2.cache.capacity = s.cache.capacity := by
  unfold Store.sweep
  generalize s.due atMs = l
  generalize 0 = n
  induction l generalizing s n with
  | nil => exact ⟨rfl, rfl, rfl⟩
  | cons j l ih => exact ih _ _

/-! ## Keeping coherence -/

theorem Store.ShownBy.touch {s : Store} {db : Database} {capacity : Nat}
    (h : s.ShownBy db username capacity) (key : String) :
    (s.touch key).ShownBy db username capacity where
  name := h.name
  hash := h.hash
  size := h.size
  keys k item hk := h.keys k item (by rwa [peek_touch] at hk)

/-- A store of the same user in a database that agrees on what it shows. -/
theorem Store.ShownBy.of_reference {s : Store} {db db' : Database} {capacity : Nat}
    (h : s.ShownBy db username capacity) (hu : db'.reference.users = db.reference.users)
    (hk : ∀ k item, s.peek k = some item → db.reference.entries username k = some item →
      db'.reference.entries username k = some item) : s.ShownBy db' username capacity where
  name := h.name
  hash := (congrFun hu username).trans h.hash
  size := h.size
  keys k item hp := hk k item hp (h.keys k item hp)

theorem Coherent.putStore (hc : Coherent m) {s : Store}
    (hs : s.ShownBy m.db username m.capacity) :
    Coherent { m with stores := m.stores.set username s } where
  useDb := hc.useDb
  capacity := hc.capacity
  quiet := hc.quiet
  quietSessions := hc.quietSessions
  keyed := hc.keyed
  shown u t ht := by
    rw [Dict.get?_set] at ht
    split at ht
    · next hu =>
        obtain rfl := Option.some.inj ht
        exact hu ▸ hs
    · exact hc.shown u t ht

/-- Changing one key in the database and in its user's store. -/
theorem Coherent.write (hc : Coherent m) {db : Database} {item : Option (String × Option Int)}
    (hdb : db.reference = m.db.reference.update username key item)
    (hkey : key = "" → item = none) {s : Store} (hs : s.ShownBy db username m.capacity) :
    Coherent { m with db, stores := m.stores.set username s } where
  useDb := hc.useDb
  capacity := hc.capacity
  quiet := hc.quiet
  quietSessions := hc.quietSessions
  keyed u := by
    simp only [hdb, Reference.update]
    split
    · next h => exact hkey h.2.symm
    · exact hc.keyed u
  shown u t ht := by
    simp only [Dict.get?_set] at ht
    split at ht
    · next hu =>
        obtain rfl := Option.some.inj ht
        exact hu ▸ hs
    · next hu =>
        refine (hc.shown u t ht).of_reference (by rw [hdb]; rfl) fun k item' _ he => ?_
        rw [hdb]
        simp only [Reference.update]
        rw [if_neg fun h => hu h.1]
        exact he

/-! ## Methods that find data -/

theorem wp_getStore (hc : Coherent m) :
    wp (getStore username)
      (fun r m' => Coherent m' ∧ m'.db = m.db ∧
        match r with
        | none => m.db.users.get? username = none
        | some s => m'.stores.get? username = some s)
      (fun _ _ => False) m := by
  unfold getStore
  rw [wp_bind, wp_get]
  cases hs : m.stores.get? username with
  | some s => exact ⟨hc, rfl, hs⟩
  | none =>
      dsimp only
      rw [if_pos hc.useDb]
      unfold loadUserFromDb
      rw [wp_bind, wp_dbRead_quiet hc.quiet]
      cases hu : m.db.getUser username with
      | none => exact ⟨hc, rfl, hu⟩
      | some passwordHash =>
          rw [wp_bind]
          refine wp_mono (wp_readStore hc.capacity hc.quiet hc.keyed hu) (fun s m' h => ?_)
            fun _ _ h => h
          obtain ⟨rfl, -, hshown⟩ := h
          rw [wp_bind, wp_get, hs]
          exact ⟨hc.putStore hshown, rfl, by simp⟩

theorem wp_lookup (hc : Coherent m) {s : Store} (hs : m.stores.get? username = some s) :
    wp (lookup s username key)
      (fun p m' => Coherent m' ∧ m'.db = m.db ∧ m'.stores.get? username = some p.2 ∧
        p.1 = m.db.reference.entries username key)
      (fun _ _ => False) m := by
  have hshown := hc.shown username s hs
  have ht := hc.putStore (hshown.touch key)
  unfold lookup KvCache.putStore
  rw [wp_bind, wp_modify]
  simp only [LRUCache.get]
  cases hv : s.cache.data.get? key with
  | some v =>
      have hp : s.peek key = some (v, s.expiry.get? key) := by
        rw [Store.peek, hv]
        rfl
      exact ⟨ht, rfl, by simp, (hshown.keys key _ hp).symm⟩
  | none =>
      dsimp only
      rw [wp_bind, wp_get, if_pos hc.useDb, wp_bind, wp_dbRead_quiet ht.quiet]
      dsimp only
      cases he : m.db.getEntryWithExpiry username key with
      | none => exact ⟨ht, rfl, by simp, he.symm⟩
      | some item =>
          obtain ⟨v, expireAt⟩ := item
          have hkey : key ≠ "" := by
            rintro rfl
            have hk := hc.keyed username
            rw [Database.reference] at hk
            simp only at hk
            rw [he] at hk
            cases hk
          dsimp only
          unfold Store.cacheSet
          rw [wp_bind, if_neg hkey, wp_pure]
          have hw : (((s.touch key).put key v).setExpiry key expireAt).ShownBy m.db username
              m.capacity := by
            refine ⟨hshown.name, hshown.hash,
              (LRUCache.capacity_insert _ _ _).trans hshown.size, fun k item hpeek => ?_⟩
            rcases peek_store hpeek with ⟨rfl, rfl⟩ | ⟨-, hpeek⟩
            · exact he
            · rw [peek_touch] at hpeek
              exact hshown.keys k item hpeek
          exact ⟨ht.putStore hw, rfl, by simp, he.symm⟩

/-! ## Verbs -/

/-- What a verb does to a coherent machine, against the reference. -/
def MatchesVerb (m : CacheStateMachine) (username : String) (verb : Verb) (x : M Result) : Prop :=
  wp x
    (fun r m' => m.db.reference.run username verb = .ok (r, m'.db.reference) ∧ Coherent m')
    (fun e m' => m.db.reference.run username verb = .error e ∧ Shown m') m

theorem matches_signup (hc : Coherent m) (passwordHash : String) :
    MatchesVerb m username (.signup passwordHash) (Verb.run username (.signup passwordHash)) := by
  unfold MatchesVerb Verb.run applySignup
  rw [wp_bind, wp_bind]
  refine wp_mono (wp_getStore hc) (fun r m' h => ?_) fun _ _ h => h.elim
  obtain ⟨hc', hdb, hr⟩ := h
  cases r with
  | some s =>
      have hu : m.db.users.get? username = some s.passwordHash := hdb ▸ (hc'.shown _ _ hr).hash
      rw [wp_pure, wp_pure, Reference.run, Database.users_reference, hu, hdb]
      exact ⟨rfl, hc'⟩
  | none =>
      rw [wp_bind, wp_get, if_pos hc'.useDb, wp_bind]
      have hu : m'.db.users.get? username = none := hdb ▸ hr
      have hsave : ∃ db, m'.db.saveUser username passwordHash = .ok db := by
        unfold Database.saveUser
        rw [if_neg (by simp [Dict.contains, hu])]
        exact ⟨_, rfl⟩
      obtain ⟨db, hdb'⟩ := hsave
      have href := (Database.reference_saveUser hdb').2
      have hcall : (m'.db.saveUser username passwordHash).map (((), ·) : Database → _)
          = .ok ((), db) := by rw [hdb']; rfl
      rw [wp_dbCall_quiet hc'.quiet hcall]
      unfold newStore putStore
      simp only [wp_bind, wp_get, hc'.capacity, dite_true, wp_pure, wp_modify]
      refine ⟨?_, hc'.useDb, hc'.capacity, hc'.quiet, hc'.quietSessions, ?_, ?_⟩
      · rw [Reference.run, Database.users_reference, hr, href, hdb]
      · intro u
        rw [href]
        exact hc'.keyed u
      · intro u t ht
        simp only [Dict.get?_set] at ht
        split at ht
        · next hu' =>
            obtain rfl := Option.some.inj ht
            subst hu'
            refine ⟨rfl, ?_, rfl, fun k item hk => ?_⟩
            · have := congrArg (fun r => r.users u) href
              simpa using this
            · simp [Store.peek, LRUCache.empty] at hk
        · next hne =>
            have hold := hc'.shown u t ht
            refine ⟨hold.name, ?_, hold.size, fun k item hk => ?_⟩
            · have := congrArg (fun r => r.users u) href
              simp only [Database.users_reference, hne, if_false] at this
              rw [this]
              exact hold.hash
            · rw [href]
              exact hold.keys k item hk

theorem contains_of_shown {s : Store} {db : Database} {capacity : Nat}
    (h : s.ShownBy db username capacity) : db.users.contains username = true := by
  rw [Dict.contains, h.hash]
  rfl

theorem matches_set (hc : Coherent m) (key value : String) (expireAt : Option Int) :
    MatchesVerb m username (.set key value expireAt)
      (Verb.run username (.set key value expireAt)) := by
  unfold MatchesVerb Verb.run applySet
  rw [wp_bind, wp_bind]
  refine wp_mono (wp_getStore hc) (fun r m' h => ?_) fun _ _ h => h.elim
  obtain ⟨hc', hdb, hr⟩ := h
  cases r with
  | none =>
      rw [wp_pure, wp_pure, Reference.run, Database.users_reference, hr, hdb]
      exact ⟨rfl, hc'⟩
  | some s =>
      have hs := hc'.shown _ _ hr
      have hu : m.db.users.get? username = some s.passwordHash := hdb ▸ hs.hash
      have href := Database.reference_saveEntry (contains_of_shown hs) key value expireAt
      rw [wp_bind, wp_get, if_pos hc'.useDb, wp_bind, wp_dbWrite_quiet hc'.quiet]
      unfold Store.cacheSet putStore
      simp only [Reference.run, Database.users_reference, hu]
      by_cases hk : key = ""
      · -- the row is written before the cache refuses the key
        rw [if_pos hk, if_pos hk, wp_bind, wp_throw]
        refine ⟨rfl, fun u t ht => (hc'.shown u t ht).of_reference ?_ fun k item hp he => ?_⟩
        · rw [href]
          rfl
        · simp only [href, Reference.update]
          rw [if_neg]
          · exact he
          · rintro ⟨rfl, rfl⟩
            rw [hk, hc'.keyed] at he
            cases he
      · rw [if_neg hk, if_neg hk, wp_bind, wp_pure, wp_bind, wp_modify, wp_pure, wp_pure]
        refine ⟨by rw [← hdb]; exact congrArg (fun r => Except.ok (Result.bool true, r)) href.symm,
          hc'.write href (fun h => absurd h hk) ⟨hs.name, ?_, ?_, fun k item hp => ?_⟩⟩
        · exact (congrFun (congrArg Reference.users href) username).trans hs.hash
        · exact (LRUCache.capacity_insert _ _ _).trans hs.size
        · simp only [href, Reference.update]
          rcases peek_store hp with ⟨rfl, rfl⟩ | ⟨hne, hp⟩
          · simp
          · rw [if_neg fun h => hne h.2]
            exact hs.keys k item hp

theorem matches_delete (hc : Coherent m) (key : String) (atMs : Option Int) :
    MatchesVerb m username (.delete key atMs) (Verb.run username (.delete key atMs)) := by
  unfold MatchesVerb Verb.run applyDelete
  rw [wp_bind, wp_bind]
  refine wp_mono (wp_getStore hc) (fun r m' h => ?_) fun _ _ h => h.elim
  obtain ⟨hc', hdb, hr⟩ := h
  cases r with
  | none =>
      rw [wp_pure, wp_pure, Reference.run, Database.users_reference, hr, hdb]
      exact ⟨rfl, hc'⟩
  | some s =>
      dsimp only
      rw [wp_bind]
      refine wp_mono (wp_lookup hc' hr) (fun p m'' h => ?_) fun _ _ h => h.elim
      obtain ⟨hc'', hdb', hr', hitem⟩ := h
      obtain ⟨item, t⟩ := p
      simp only at hr' hitem
      have ht := hc''.shown _ _ hr'
      have hu : m.db.users.get? username = some t.passwordHash := by
        rw [← hdb, ← hdb']
        exact ht.hash
      have href := Database.reference_deleteEntry (contains_of_shown ht) key
      dsimp only
      rw [wp_bind, wp_get, if_pos hc''.useDb, wp_bind, wp_dbCall_pair hc''.quiet]
      unfold putStore
      simp only [wp_bind, wp_modify, wp_pure, Reference.run, Database.users_reference, hu]
      refine ⟨?_, hc''.write href (fun _ => rfl) ⟨ht.name, ?_, ht.size, fun k item' hp => ?_⟩⟩
      · rw [href, hdb', hitem, hdb]
      · exact (congrFun (congrArg Reference.users href) username).trans ht.hash
      · rw [peek_setExpiry, peek_uncache] at hp
        simp only [href, Reference.update]
        by_cases hk : k = key
        · simp [hk] at hp
        · rw [if_neg hk, if_neg hk] at hp
          rw [if_neg fun h => hk h.2]
          exact ht.keys k item' hp

theorem matches_expiry (hc : Coherent m) (key : String) (expireAt : Option Int) (atMs : Int) :
    MatchesVerb m username (.expiry key expireAt atMs)
      (Verb.run username (.expiry key expireAt atMs)) := by
  unfold MatchesVerb Verb.run applyExpiry
  rw [wp_bind, wp_bind]
  refine wp_mono (wp_getStore hc) (fun r m' h => ?_) fun _ _ h => h.elim
  obtain ⟨hc', hdb, hr⟩ := h
  cases r with
  | none =>
      rw [wp_pure, wp_pure, Reference.run, Database.users_reference, hr, hdb]
      exact ⟨rfl, hc'⟩
  | some s =>
      dsimp only
      rw [wp_bind]
      refine wp_mono (wp_lookup hc' hr) (fun p m'' h => ?_) fun _ _ h => h.elim
      obtain ⟨hc'', hdb', hr', hitem⟩ := h
      obtain ⟨item, t⟩ := p
      simp only at hr' hitem
      have ht := hc''.shown _ _ hr'
      have hu : m.db.users.get? username = some t.passwordHash := by
        rw [← hdb, ← hdb']
        exact ht.hash
      have hentry : m.db.reference.entries username key = item := by rw [hitem, hdb]
      have hsame : m''.db = m.db := hdb'.trans hdb
      simp only [Reference.run, Database.users_reference, hu, hentry]
      cases item with
      | none =>
          rw [wp_pure, wp_pure, hsame]
          exact ⟨rfl, hc''⟩
      | some item =>
          obtain ⟨value, old⟩ := item
          simp only [wp_ite]
          by_cases he : expired old atMs = true
          · rw [if_pos he, wp_pure, wp_pure, hsame]
            exact ⟨by simp [refusesExpiry, he], hc''⟩
          · rw [if_neg he]
            by_cases hn : expireAt = none ∧ old = none
            · rw [if_pos hn, wp_pure, wp_pure, hsame]
              exact ⟨by simp [refusesExpiry, hn], hc''⟩
            · have hrefuse : refusesExpiry (some (value, old)) expireAt atMs = false := by
                cases expireAt <;> cases old <;> simp_all [refusesExpiry]
              have href := Database.reference_setExpiry m''.db username key expireAt
              rw [hsame, hentry] at href
              rw [if_neg hn, wp_bind, wp_get, wp_ite, if_pos hc''.useDb, wp_bind,
                wp_dbCall_pair hc''.quiet]
              unfold putStore
              simp only [wp_bind, wp_modify, wp_pure, hrefuse, Bool.false_eq_true, if_false]
              have hkey : key ≠ "" := by
                rintro rfl
                have hk := hc.keyed username
                rw [hentry] at hk
                cases hk
              rw [hsame]
              refine ⟨by rw [href], ?_⟩
              have hupd : (m.db.setExpiry username key expireAt).2.reference
                  = m''.db.reference.update username key
                      ((some (value, old)).map fun p => (p.1, expireAt)) := by
                rw [hsame]
                exact href
              refine hc''.write hupd (fun h => absurd h hkey)
                ⟨ht.name, ?_, ht.size, fun k item' hp => ?_⟩
              · have hus := congrFun (congrArg Reference.users href) username
                rw [Database.users_reference] at hus
                rw [hus]
                exact hu
              · rw [href]
                simp only [Reference.update]
                rw [peek_setExpiry] at hp
                by_cases hk : k = key
                · rw [if_pos hk] at hp
                  rw [if_pos ⟨trivial, hk⟩]
                  obtain ⟨p, hp', rfl⟩ := Option.map_eq_some_iff.mp hp
                  have := ht.keys k p hp'
                  rw [hsame, hk, hentry] at this
                  rw [← Option.some.inj this]
                  rfl
                · rw [if_neg hk] at hp
                  rw [if_neg fun h => hk h.2]
                  exact hsame ▸ ht.keys k item' hp

theorem matches_sweep (hc : Coherent m) (atMs : Int) :
    MatchesVerb m username (.sweep atMs) (Verb.run username (.sweep atMs)) := by
  unfold MatchesVerb Verb.run applySweep sweepStores
  have href := Database.reference_deleteExpired m.db atMs
  rw [wp_bind, wp_bind, wp_get, if_pos hc.useDb, wp_bind, wp_dbCall_pair hc.quiet]
  simp only [wp_bind, wp_get, wp_set, wp_pure]
  refine ⟨?_, hc.useDb, hc.capacity, hc.quiet, hc.quietSessions, fun u => ?_, fun u t ht => ?_⟩
  · rw [Reference.run, href, Database.deleted_deleteExpired]
  · rw [href]
    simp only [Reference.sweep, hc.keyed u]
    rfl
  · obtain ⟨s, hs, rfl⟩ := Dict.get?_mapValues_eq_some.mp ht
    have hold := hc.shown u s hs
    obtain ⟨h₁, h₂, h₃⟩ := cache_sweep s atMs
    refine ⟨h₁.trans hold.name, ?_, h₃.trans hold.size, fun k item hp => ?_⟩
    · rw [h₂]
      exact (congrFun (congrArg Reference.users href) u).trans hold.hash
    · rw [peek_sweep] at hp
      split at hp
      · cases hp
      · next hdue =>
          rw [href]
          simp only [Reference.sweep, hold.keys k item hp]
          obtain ⟨v, hv, rfl⟩ := Option.map_eq_some_iff.mp hp
          have halive : expired (s.expiry.get? k) atMs = false := by
            cases he : s.expiry.get? k with
            | none => rfl
            | some x =>
                have : ¬ x ≤ atMs := fun hle => hdue (mem_due.mpr ⟨x, he, hle⟩)
                simpa [expired] using this
          simp [Option.filter, halive]

theorem matches_verb (hc : Coherent m) (verb : Verb) :
    MatchesVerb m username verb (verb.run username) := by
  cases verb with
  | signup passwordHash => exact matches_signup hc _
  | set key value expireAt => exact matches_set hc _ _ _
  | delete key atMs => exact matches_delete hc _ _
  | expiry key expireAt atMs => exact matches_expiry hc _ _ _
  | sweep atMs => exact matches_sweep hc _
  | unknown => exact ⟨rfl, hc⟩

end Coherent

end KvCache
