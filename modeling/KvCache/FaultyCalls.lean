import KvCache.DbRuns

/-!
# Failing database calls

A method that no failing call stops does what it does when no call fails
(`Quietly`). A command that a failing call does stop has loaded and touched
RAM at most, and can be run again from there as if it had not been tried
(`command_again`).
-/

namespace KvCache

open StateWp

/-- The machine with no failing calls to come. -/
def CacheStateMachine.quiet (m : CacheStateMachine) : CacheStateMachine :=
  { m with faults := [], sessionFaults := [] }

theorem Coherent.quiet_eq {m : CacheStateMachine} (hc : Coherent m) : m.quiet = m := by
  have h₁ := hc.quiet
  have h₂ := hc.quietSessions
  cases m
  simp only at h₁ h₂
  subst h₁ h₂
  rfl

/-- Unless a failing call stops it, `x` does what it does without failing
calls; a failing call is taken from the list of them. -/
def Quietly {α : Type} (x : M α) : Prop :=
  ∀ m, wp x
    (fun a m' => x.run m.quiet = .ok a m'.quiet ∧ m'.faults.length ≤ m.faults.length)
    (fun e m' => (e = .database ∧ m'.faults.length < m.faults.length) ∨
      x.run m.quiet = .error e m'.quiet) m

section Quietly

theorem quietly_pure {α : Type} (a : α) : Quietly (pure a) := by
  intro m
  exact ⟨rfl, le_refl _⟩

theorem quietly_throw {α : Type} (e : SmError) : Quietly (throw e : M α) := by
  intro m
  exact Or.inr rfl

theorem quietly_bind {α β : Type} {x : M β} {f : β → M α} (hx : Quietly x)
    (hf : ∀ b, Quietly (f b)) : Quietly (x >>= f) := by
  intro m
  rw [wp_bind]
  refine wp_mono (hx m) ?_ ?_
  · rintro b m₁ ⟨hrun, hlen⟩
    refine wp_mono (hf b m₁) ?_ ?_
    · rintro a m₂ ⟨hrun', hlen'⟩
      refine ⟨?_, le_trans hlen' hlen⟩
      rw [EStateM.run_bind, hrun]
      exact hrun'
    · rintro e m₂ (⟨he, hlt⟩ | hrun')
      · exact Or.inl ⟨he, lt_of_lt_of_le hlt hlen⟩
      · refine Or.inr ?_
        rw [EStateM.run_bind, hrun]
        exact hrun'
  · rintro e m₁ (hfault | hrun)
    · exact Or.inl hfault
    · refine Or.inr ?_
      rw [EStateM.run_bind, hrun]

/-- Looking at anything but the failing calls to come. -/
theorem quietly_get {α : Type} {f : CacheStateMachine → M α} (hf : ∀ m, Quietly (f m))
    (h : ∀ m : CacheStateMachine, f m.quiet = f m) : Quietly (get >>= f) := by
  intro m
  have hrun : (get >>= f).run m.quiet = (f m).run m.quiet := by
    rw [EStateM.run_bind]
    exact congrArg (EStateM.run · m.quiet) (h m)
  rw [wp_bind, wp_get, hrun]
  exact hf m m

theorem quietly_ite {α : Type} {c : Prop} [Decidable c] {x y : M α} (hx : Quietly x)
    (hy : Quietly y) : Quietly (if c then x else y) := by
  split
  · exact hx
  · exact hy

theorem wp_dbCall {α : Type} {f : Database → Except SmError (α × Database)} {m : CacheStateMachine}
    {Q : α → CacheStateMachine → Prop} {R : SmError → CacheStateMachine → Prop} :
    wp (dbCall f) Q R m ↔
      let m₁ := { m with faults := m.faults.tail }
      if m.faults.headD false then R .database m₁
      else match f m.db with
        | .ok (a, db) => Q a { m₁ with db }
        | .error e => R e m₁ := by
  unfold dbCall
  simp only [wp_bind, wp_get, wp_set, wp_ite, wp_throw]
  split
  · exact Iff.rfl
  · cases f m.db with
    | error e => exact Iff.rfl
    | ok p => exact Iff.rfl

theorem length_tail_lt {l : List Bool} (h : l.headD false = true) : l.tail.length < l.length := by
  cases l with
  | nil => cases h
  | cons b l => exact Nat.lt_succ_self _

theorem quietly_dbCall {α : Type} (f : Database → Except SmError (α × Database)) :
    Quietly (dbCall f) := by
  intro m
  rw [wp_dbCall]
  dsimp only
  split
  · next h => exact Or.inl ⟨rfl, length_tail_lt h⟩
  · have htail : m.faults.tail.length ≤ m.faults.length := by
      rw [List.length_tail]
      omega
    cases hf : f m.db with
    | error e =>
        refine Or.inr (run_eq_error ?_)
        rw [wp_dbCall]
        change (match f m.db with | .ok (a, db) => _ | .error e => _)
        rw [hf]
        exact ⟨rfl, rfl⟩
    | ok p =>
        refine ⟨run_eq_ok ?_, htail⟩
        rw [wp_dbCall]
        change (match f m.db with | .ok (a, db) => _ | .error e => _)
        rw [hf]
        exact ⟨rfl, rfl⟩

theorem quietly_dbRead {α : Type} (f : Database → α) : Quietly (dbRead f) := quietly_dbCall _

theorem quietly_dbWrite (f : Database → Database) : Quietly (dbWrite f) := quietly_dbCall _

theorem quietly_cacheSet (store : Store) (key value : String) :
    Quietly (store.cacheSet key value) :=
  quietly_ite (quietly_throw _) (quietly_pure _)

theorem quietly_newStore (username passwordHash : String) :
    Quietly (newStore username passwordHash) := by
  refine quietly_get ?_ (fun m => rfl)
  intro m
  split
  · exact quietly_pure _
  · exact quietly_throw _

theorem quietly_putStore (username : String) (store : Store) :
    Quietly (putStore username store) := by
  intro m
  exact ⟨rfl, le_refl _⟩

theorem quietly_fill (store : Store) (l : List (String × String)) : Quietly (store.fill l) := by
  induction l generalizing store with
  | nil => exact quietly_pure _
  | cons p l ih => exact quietly_bind (quietly_cacheSet _ _ _) fun s => ih s

theorem quietly_readStore (username passwordHash : String) :
    Quietly (readStore username passwordHash) := by
  refine quietly_get ?_ (fun m => rfl)
  intro m
  exact quietly_bind (quietly_newStore _ _) fun _ => quietly_bind (quietly_dbRead _) fun _ =>
    quietly_bind (quietly_fill _ _) fun _ => quietly_bind (quietly_dbRead _) fun _ =>
      quietly_pure _

theorem quietly_getStore (username : String) : Quietly (getStore username) := by
  refine quietly_get ?_ (fun m => rfl)
  intro m
  cases m.stores.get? username with
  | some s => exact quietly_pure _
  | none =>
      refine quietly_ite (quietly_bind (quietly_dbRead _) fun user => ?_) (quietly_pure _)
      cases user with
      | none => exact quietly_pure _
      | some passwordHash =>
          refine quietly_bind (quietly_readStore _ _) fun store => quietly_get ?_ (fun m => rfl)
          intro m
          cases m.stores.get? username with
          | some s => exact quietly_pure _
          | none => exact quietly_bind (quietly_putStore _ _) fun _ => quietly_pure _

theorem quietly_lookup (store : Store) (username key : String) :
    Quietly (lookup store username key) := by
  refine quietly_bind (quietly_putStore _ _) fun _ => ?_
  cases (store.cache.get key).1 with
  | some v => exact quietly_pure _
  | none =>
      refine quietly_get ?_ (fun m => rfl)
      intro m
      refine quietly_ite (quietly_bind (quietly_dbRead _) fun row => ?_) (quietly_pure _)
      cases row with
      | none => exact quietly_pure _
      | some row =>
          exact quietly_bind (quietly_cacheSet _ _ _) fun _ =>
            quietly_bind (quietly_putStore _ _) fun _ => quietly_pure _

theorem quietly_applySignup (username passwordHash : String) :
    Quietly (applySignup username passwordHash) := by
  refine quietly_bind (quietly_getStore _) fun store => ?_
  cases store with
  | some s => exact quietly_pure _
  | none =>
      have hnew : Quietly (do
          let store ← newStore username passwordHash
          putStore username store
          pure true) :=
        quietly_bind (quietly_newStore _ _) fun _ =>
          quietly_bind (quietly_putStore _ _) fun _ => quietly_pure _
      refine quietly_get ?_ (fun m => rfl)
      intro m
      exact quietly_ite (quietly_bind (quietly_dbCall _) fun _ => hnew) hnew

theorem quietly_applySet (username key value : String) (expireAt : Option Int) :
    Quietly (applySet username key value expireAt) := by
  refine quietly_bind (quietly_getStore _) fun store => ?_
  cases store with
  | none => exact quietly_pure _
  | some s =>
      have hput : Quietly (do
          let store ← s.cacheSet key value
          putStore username (store.setExpiry key expireAt)
          pure true) :=
        quietly_bind (quietly_cacheSet _ _ _) fun _ =>
          quietly_bind (quietly_putStore _ _) fun _ => quietly_pure _
      refine quietly_get ?_ (fun m => rfl)
      intro m
      exact quietly_ite (quietly_bind (quietly_dbWrite _) fun _ => hput) hput

theorem quietly_applyDelete (username key : String) (atMs : Option Int) :
    Quietly (applyDelete username key atMs) := by
  refine quietly_bind (quietly_getStore _) fun store => ?_
  cases store with
  | none => exact quietly_pure _
  | some s =>
      refine quietly_bind (quietly_lookup _ _ _) fun p => quietly_get ?_ (fun m => rfl)
      intro m
      have hput : Quietly (do
          putStore username ((p.2.uncache key).setExpiry key none)
          pure (existedAt p.1 atMs)) :=
        quietly_bind (quietly_putStore _ _) fun _ => quietly_pure _
      exact quietly_ite (quietly_bind (quietly_dbCall _) fun _ => hput) hput

theorem quietly_applyExpiry (username key : String) (expireAt : Option Int) (atMs : Int) :
    Quietly (applyExpiry username key expireAt atMs) := by
  refine quietly_bind (quietly_getStore _) fun store => ?_
  cases store with
  | none => exact quietly_pure _
  | some s =>
      refine quietly_bind (quietly_lookup _ _ _) fun p => ?_
      obtain ⟨item, t⟩ := p
      cases item with
      | none => exact quietly_pure _
      | some item =>
          have hput : Quietly (do
              putStore username (t.setExpiry key expireAt)
              pure true) :=
            quietly_bind (quietly_putStore _ _) fun _ => quietly_pure _
          refine quietly_ite (quietly_pure _) (quietly_ite (quietly_pure _)
            (quietly_get ?_ (fun m => rfl)))
          intro m
          exact quietly_ite (quietly_bind (quietly_dbCall _) fun _ => hput) hput

theorem quietly_sweepStores (atMs : Int) : Quietly (sweepStores atMs) := by
  intro m
  exact ⟨rfl, le_refl _⟩

theorem quietly_applySweep (atMs : Int) : Quietly (applySweep atMs) := by
  refine quietly_get ?_ (fun m => rfl)
  intro m
  exact quietly_ite (quietly_bind (quietly_dbCall _) fun _ =>
    quietly_bind (quietly_sweepStores _) fun _ => quietly_pure _)
    (quietly_bind (quietly_sweepStores _) fun _ => quietly_pure _)

/-- A command that no failing call stops does what it does without any. -/
theorem quietly_applyCommand (entry : LogEntry) : Quietly (applyCommand entry) := by
  unfold applyCommand
  cases entry.verb with
  | error e => exact quietly_throw _
  | ok verb =>
      cases verb with
      | signup => exact quietly_bind (quietly_applySignup _ _) fun _ => quietly_pure _
      | set => exact quietly_bind (quietly_applySet _ _ _ _) fun _ => quietly_pure _
      | delete => exact quietly_bind (quietly_applyDelete _ _ _) fun _ => quietly_pure _
      | expiry => exact quietly_bind (quietly_applyExpiry _ _ _ _) fun _ => quietly_pure _
      | sweep => exact quietly_bind (quietly_applySweep _) fun _ => quietly_pure _
      | unknown => exact quietly_pure _

end Quietly

/-! ## Looking again -/

theorem touch_of_none {s : Store} {key : String} (h : s.cache.data.get? key = none) :
    s.touch key = s := by
  have hd : s.cache.data.moveToEnd key = s.cache.data := by
    unfold Dict.moveToEnd
    rw [h]
  have hc : (s.cache.get key).2 = s.cache := LRUCache.ext_data rfl hd
  unfold Store.touch
  rw [hc]

theorem touch_touch (s : Store) (key : String) : (s.touch key).touch key = s.touch key := by
  have hc : ((s.cache.get key).2.get key).2 = (s.cache.get key).2 :=
    LRUCache.ext_data rfl (Dict.moveToEnd_moveToEnd s.cache.data key)
  unfold Store.touch
  dsimp only
  rw [hc]

theorem touch_put_of_none {s : Store} {key : String} (value : String)
    (h : s.cache.data.get? key = none) : (s.put key value).touch key = s.put key value := by
  have hi : (s.cache.insert key value).data = s.cache.roomFor.set key value := by
    unfold LRUCache.insert
    rw [dif_neg (by simp [Dict.contains, h])]
  have hroom : s.cache.roomFor.get? key = none := by
    unfold LRUCache.roomFor
    split
    · rw [Dict.get?_eq_none] at h ⊢
      intro v hv
      exact h v (List.mem_of_mem_tail hv)
    · exact h
  have hlast : (s.cache.insert key value).data.moveToEnd key = (s.cache.insert key value).data := by
    rw [hi, Dict.set_of_get?_none hroom, Dict.moveToEnd_putLast]
  have hc : ((s.cache.insert key value).get key).2 = s.cache.insert key value :=
    LRUCache.ext_data rfl hlast
  unfold Store.touch Store.put
  dsimp only
  rw [hc]

/-- Parsing a command never fails as the database does. -/
theorem verb_ne_database (entry : LogEntry) : entry.verb ≠ .error .database := by
  have hint : ∀ {α : Type} (l : List Char) (f : Int → Except SmError α),
      (∀ n, f n ≠ .error .database) → (readInt l >>= f) ≠ .error .database := by
    intro α l f hf
    unfold readInt
    split
    · exact hf _
    · intro h
      cases h
  have hok : ∀ {verb : Verb}, (pure verb : Except SmError Verb) ≠ .error .database := by
    intro verb h
    cases h
  have hbad : (throw .malformed : Except SmError Verb) ≠ .error .database := by
    intro h
    cases h
  unfold LogEntry.verb
  split
  · unfold parseVerb
    dsimp only
    split
    · exact hok
    · exact hok
    · split
      · exact hint _ _ fun _ => hok
      · exact hbad
    · split
      · exact hok
      · exact hint _ _ fun _ => hok
    · split
      · exact hint _ _ fun _ => hint _ _ fun _ => hok
      · exact hbad
    · split
      · exact hint _ _ fun _ => hok
      · exact hbad
    · exact hint _ _ fun _ => hok
    · exact hok
  · exact hok

section Again

variable {m : CacheStateMachine} {username key : String}

theorem quiet_dbRead {α : Type} (f : Database → α) (q : CacheStateMachine) :
    Keeps (fun m => m.quiet = q) (dbRead f) := by
  intro m hm
  unfold dbRead
  rw [wp_dbCall]
  dsimp only
  split
  · exact hm
  · exact hm

theorem quiet_fill (q : CacheStateMachine) (store : Store) (l : List (String × String)) :
    Keeps (fun m => m.quiet = q) (store.fill l) := by
  induction l generalizing store with
  | nil => exact keeps_pure _
  | cons p l ih =>
      refine keeps_bind ?_ fun s => ih s
      exact keeps_ite (keeps_throw _) (keeps_pure _)

theorem quiet_readStore (q : CacheStateMachine) (username passwordHash : String) :
    Keeps (fun m => m.quiet = q) (readStore username passwordHash) := by
  have hnew : Keeps (fun m => m.quiet = q) (newStore username passwordHash) := by
    intro m hm
    unfold newStore
    rw [wp_bind, wp_get]
    split
    · exact hm
    · exact hm
  exact keeps_bind keeps_get fun _ => keeps_bind hnew fun _ => keeps_bind (quiet_dbRead _ q) fun _ =>
    keeps_bind (quiet_fill q _ _) fun _ => keeps_bind (quiet_dbRead _ q) fun _ => keeps_pure _

/-- A load that a failing call stops has changed nothing. -/
theorem quiet_getStore : wp (getStore username) (fun _ _ => True) (fun _ m' => m'.quiet = m.quiet) m := by
  unfold getStore
  rw [wp_bind, wp_get]
  cases m.stores.get? username with
  | some s => trivial
  | none =>
      dsimp only
      rw [wp_ite]
      split
      · unfold loadUserFromDb
        rw [wp_bind]
        refine wp_mono (quiet_dbRead _ m.quiet m rfl) ?_ (fun _ _ h => h)
        intro user m₁ h₁
        cases user with
        | none => trivial
        | some passwordHash =>
            rw [wp_bind]
            refine wp_mono (quiet_readStore m.quiet _ _ m₁ h₁) ?_ (fun _ _ h => h)
            intro store m₂ _
            rw [wp_bind, wp_get]
            split <;> trivial
      · trivial

theorem run_getStore_hit {s : Store} (h : m.stores.get? username = some s) :
    (getStore username).run m = .ok (some s) m := by
  refine run_eq_ok ?_
  unfold getStore
  rw [wp_bind, wp_get, h]
  exact ⟨rfl, rfl⟩

/-- What `getStore` gives, it gives again. -/
theorem getStore_again (hc : Coherent m.quiet) :
    wp (getStore username)
      (fun r m' => Coherent m'.quiet ∧ (getStore username).run m.quiet = .ok r m'.quiet ∧
        (getStore username).run m'.quiet = .ok r m'.quiet ∧
        ∀ s, r = some s → m'.stores.get? username = some s)
      (fun _ m' => m'.quiet = m.quiet) m := by
  refine wp_mono (wp_and (quietly_getStore username m) (quiet_getStore (m := m))) ?_
    (fun _ _ h => h.2)
  rintro r m' ⟨⟨hrun, -⟩, -⟩
  have h := @wp_getStore m.quiet username hc
  rw [wp_of_run_ok hrun] at h
  obtain ⟨hc', hdb, hr⟩ := h
  cases r with
  | some s =>
      refine ⟨hc', hrun, run_getStore_hit hr, ?_⟩
      intro t ht
      exact Option.some.inj ht ▸ hr
  | none =>
      refine ⟨hc', hrun, ?_, fun s hs => by cases hs⟩
      have hu : m'.quiet.db.users.get? username = none := hdb ▸ hr
      have hmiss : m'.quiet.stores.get? username = none := by
        cases hs : m'.quiet.stores.get? username with
        | none => rfl
        | some s =>
            have := (hc'.shown _ _ hs).hash
            rw [hu] at this
            cases this
      refine run_eq_ok ?_
      unfold getStore loadUserFromDb
      rw [wp_bind, wp_get, hmiss]
      dsimp only
      rw [if_pos hc'.useDb, wp_bind, wp_dbRead_quiet hc'.quiet, Database.getUser, hu]
      exact ⟨rfl, rfl⟩

/-- A lookup that a failing call stops has changed nothing. -/
theorem quiet_lookup (hc : Coherent m.quiet) {s : Store} (hs : m.stores.get? username = some s) :
    wp (lookup s username key) (fun _ _ => True) (fun _ m' => m'.quiet = m.quiet) m := by
  unfold lookup putStore
  rw [wp_bind, wp_modify]
  simp only [LRUCache.get]
  cases hv : s.cache.data.get? key with
  | some v => trivial
  | none =>
      have hsame : ({ m with stores := m.stores.set username (s.touch key) } : CacheStateMachine)
          = m := by
        rw [touch_of_none hv, Dict.set_of_get? hs]
      rw [hsame]
      dsimp only
      rw [wp_bind, wp_get, wp_ite]
      split
      · rw [wp_bind, dbRead, wp_dbCall]
        dsimp only
        split
        · rfl
        · cases he : m.db.getEntryWithExpiry username key with
          | none => trivial
          | some item =>
              have hkey : key ≠ "" := by
                rintro rfl
                have hk := hc.keyed username
                change m.db.getEntryWithExpiry username "" = none at hk
                rw [he] at hk
                cases hk
              dsimp only
              unfold Store.cacheSet
              rw [wp_bind, if_neg hkey, wp_pure]
              trivial
      · trivial

/-- A lookup leaves the key it found as the newest, and what it found. -/
theorem lookup_settles (s : Store) :
    wp (lookup s username key) (fun p _ => p.2.touch key = p.2 ∧ p.2.peek key = p.1)
      (fun _ _ => True) m := by
  unfold lookup putStore
  rw [wp_bind, wp_modify]
  simp only [LRUCache.get]
  have htouch := touch_touch s key
  cases hv : s.cache.data.get? key with
  | some v =>
      refine ⟨htouch, ?_⟩
      rw [peek_touch, Store.peek, hv]
      rfl
  | none =>
      have hnone : (s.touch key).peek key = none := by
        rw [peek_touch, Store.peek, hv]
        rfl
      dsimp only
      rw [wp_bind, wp_get, wp_ite]
      split
      · rw [wp_bind, dbRead, wp_dbCall]
        dsimp only
        split
        · trivial
        · cases m.db.getEntryWithExpiry username key with
          | none => exact ⟨htouch, hnone⟩
          | some item =>
              obtain ⟨v, expireAt⟩ := item
              dsimp only
              unfold Store.cacheSet
              rw [wp_bind, wp_ite]
              split
              · trivial
              · rw [wp_pure, touch_of_none hv]
                refine ⟨?_, ?_⟩
                · have hput := touch_put_of_none v hv
                  change ((s.put key v).touch key).setExpiry key expireAt = _
                  rw [hput]
                · rw [peek_setExpiry, if_pos rfl, peek_put, LRUCache.get?_insert, if_pos rfl]
                  rfl
      · exact ⟨htouch, hnone⟩

/-- What a lookup finds, it finds again in the store it leaves. -/
theorem lookup_again (hc : Coherent m.quiet) {s : Store} (hs : m.stores.get? username = some s) :
    wp (lookup s username key)
      (fun p m' => Coherent m'.quiet ∧ (lookup s username key).run m.quiet = .ok p m'.quiet ∧
        m'.stores.get? username = some p.2 ∧
        (lookup p.2 username key).run m'.quiet = .ok p m'.quiet)
      (fun _ m' => m'.quiet = m.quiet) m := by
  refine wp_mono (wp_and (wp_and (quietly_lookup s username key m) (quiet_lookup hc hs))
    (lookup_settles s)) ?_ (fun _ _ h => h.1.2)
  rintro ⟨item, t⟩ m' ⟨⟨⟨hrun, -⟩, -⟩, htouch, hpeek⟩
  have h := @wp_lookup m.quiet username key hc s hs
  rw [wp_of_run_ok hrun] at h
  obtain ⟨hc', hdb, hp, hitem⟩ := h
  refine ⟨hc', hrun, hp, run_eq_ok ?_⟩
  have hsame : ({ m'.quiet with stores := m'.quiet.stores.set username t } : CacheStateMachine)
      = m'.quiet := by
    rw [Dict.set_of_get? hp]
  dsimp only at htouch hpeek hitem
  unfold lookup putStore
  rw [wp_bind, wp_modify]
  simp only [LRUCache.get, htouch]
  rw [hsame]
  unfold Store.peek at hpeek
  cases hv : t.cache.data.get? key with
  | some v =>
      rw [hv] at hpeek
      subst hpeek
      exact ⟨rfl, rfl⟩
  | none =>
      rw [hv] at hpeek
      subst hpeek
      dsimp only
      rw [wp_bind, wp_get, if_pos hc'.useDb, wp_bind, wp_dbRead_quiet hc'.quiet]
      have hrow : m'.quiet.db.getEntryWithExpiry username key = none := by
        rw [hdb]
        exact hitem.symm
      rw [hrow]
      exact ⟨rfl, rfl⟩

/-! ## Trying again -/

/-- After a failing database call stopped `x`, running it without failing
calls does what it would have done at first. -/
def Again {α : Type} (x : M α) (m : CacheStateMachine) : Prop :=
  wp x (fun _ _ => True)
    (fun e m' => e = .database → Coherent m'.quiet ∧ x.run m'.quiet = x.run m.quiet) m

theorem again_map {α β : Type} {x : M α} (f : α → β) (h : Again x m) :
    Again (do let a ← x; pure (f a)) m := by
  unfold Again
  rw [wp_bind]
  refine wp_mono h (fun _ _ _ => trivial) ?_
  intro e m' h he
  obtain ⟨hc, hrun⟩ := h he
  refine ⟨hc, ?_⟩
  rw [EStateM.run_bind, EStateM.run_bind, hrun]

/-- A method that starts with the user's store. -/
theorem again_getStore {α : Type} {f : Option Store → M α} (hc : Coherent m.quiet)
    (hf : ∀ r m₁, Coherent m₁.quiet → (getStore username).run m₁.quiet = .ok r m₁.quiet →
      (∀ s, r = some s → m₁.stores.get? username = some s) →
      wp (f r) (fun _ _ => True) (fun e m₂ => e = .database → Coherent m₂.quiet ∧
        (getStore username >>= f).run m₂.quiet = (f r).run m₁.quiet) m₁) :
    Again (getStore username >>= f) m := by
  unfold Again
  rw [wp_bind]
  refine wp_mono (getStore_again hc) ?_ ?_
  · rintro r m₁ ⟨hc₁, hrun, hstay, hs⟩
    have hwhole : (getStore username >>= f).run m.quiet = (f r).run m₁.quiet := by
      rw [EStateM.run_bind, hrun]
    rw [hwhole]
    exact hf r m₁ hc₁ hstay hs
  · intro e m₁ hq _
    rw [hq]
    exact ⟨hc, rfl⟩

/-- A failing call changes nothing but the list of them. -/
theorem again_dbCall {α β : Type} {f : Database → Except SmError (α × Database)} {g : α → M β}
    {P : CacheStateMachine → Prop} (hf : ∀ e, f m.db = .error e → e ≠ .database)
    (hg : ∀ a m', wp (g a) (fun _ _ => True) (fun e _ => e ≠ .database) m')
    (hp : ∀ m', m'.quiet = m.quiet → P m') :
    wp (dbCall f >>= g) (fun _ _ => True) (fun e m' => e = .database → P m') m := by
  rw [wp_bind, wp_dbCall]
  dsimp only
  split
  · intro _
    exact hp _ rfl
  · split
    · next a db _ =>
        refine wp_mono (hg a _) (fun _ _ h => h) ?_
        intro e _ hne he
        exact absurd he hne
    · next e he =>
        intro h
        exact absurd h (hf e he)

theorem again_applySignup (hc : Coherent m.quiet) (passwordHash : String) :
    Again (applySignup username passwordHash) m := by
  refine again_getStore hc ?_
  intro r m₁ hc₁ hstay _
  cases r with
  | some s => trivial
  | none =>
      dsimp only
      rw [wp_bind, wp_get, if_pos (show m₁.useDb = true from hc₁.useDb)]
      refine again_dbCall ?_ ?_ ?_
      · intro e he hdb
        have hr := @wp_getStore m₁.quiet username hc₁
        rw [wp_of_run_ok hstay] at hr
        have hu : m₁.db.users.get? username = none := hr.2.2
        unfold Database.saveUser at he
        rw [if_neg (by simp [Dict.contains, hu])] at he
        cases he
      · intro _ m'
        unfold newStore putStore
        rw [wp_bind, wp_bind, wp_get]
        split
        · trivial
        · simp
      · intro m₂ hq
        rw [hq]
        refine ⟨hc₁, ?_⟩
        rw [EStateM.run_bind, hstay]

theorem again_applySet (hc : Coherent m.quiet) (value : String) (expireAt : Option Int) :
    Again (applySet username key value expireAt) m := by
  refine again_getStore hc ?_
  intro r m₁ hc₁ hstay _
  cases r with
  | none => trivial
  | some s =>
      dsimp only
      rw [wp_bind, wp_get, if_pos (show m₁.useDb = true from hc₁.useDb)]
      refine again_dbCall ?_ ?_ ?_
      · intro e he
        cases he
      · intro _ m'
        unfold Store.cacheSet putStore
        rw [wp_bind, wp_ite]
        split
        · simp
        · trivial
      · intro m₂ hq
        rw [hq]
        refine ⟨hc₁, ?_⟩
        rw [EStateM.run_bind, hstay]

/-- A method that goes on with a lookup in the user's store. -/
theorem again_lookup {β : Type} {f : Option Store → M β}
    {g : Option (String × Option Int) × Store → M β} (hc : Coherent m.quiet) {absent : β}
    (hnone : f none = pure absent) (hf : ∀ t, f (some t) = (lookup t username key >>= g))
    (hg : ∀ p m', m'.useDb = true → wp (g p) (fun _ _ => True)
      (fun e m₂ => e = .database → m₂.quiet = m'.quiet) m') :
    Again (getStore username >>= f) m := by
  have hhit : ∀ {t : Store} {m' : CacheStateMachine}, m'.stores.get? username = some t →
      (getStore username >>= f).run m'.quiet = (f (some t)).run m'.quiet := by
    intro t m' ht
    rw [EStateM.run_bind, run_getStore_hit (show m'.quiet.stores.get? username = some t from ht)]
  refine again_getStore hc ?_
  intro r m₁ hc₁ _ hs
  cases r with
  | none =>
      rw [hnone]
      trivial
  | some s =>
      rw [hf s, wp_bind]
      refine wp_mono (lookup_again hc₁ (hs s rfl)) ?_ ?_
      · rintro p m₂ ⟨hc₂, hrun, hp, hagain⟩
        refine wp_mono (hg p m₂ hc₂.useDb) (fun _ _ _ => trivial) ?_
        intro e m₃ hq he
        rw [hq he, hhit hp, hf]
        refine ⟨hc₂, ?_⟩
        rw [EStateM.run_bind, EStateM.run_bind, hrun, hagain]
      · intro e m₂ hq _
        rw [hq, hhit (hs s rfl), hf]
        exact ⟨hc₁, rfl⟩

theorem again_applyDelete (hc : Coherent m.quiet) (atMs : Option Int) :
    Again (applyDelete username key atMs) m := by
  refine again_lookup hc rfl (fun t => rfl) ?_
  rintro ⟨item, t⟩ m₁ hm₁
  dsimp only
  rw [wp_bind, wp_get, if_pos hm₁]
  refine again_dbCall ?_ ?_ fun m₂ hq => hq
  · intro e he
    cases he
  · intro _ m₂
    trivial

theorem again_applyExpiry (hc : Coherent m.quiet) (expireAt : Option Int) (atMs : Int) :
    Again (applyExpiry username key expireAt atMs) m := by
  refine again_lookup hc rfl (fun t => rfl) ?_
  rintro ⟨item, t⟩ m₁ hm₁
  cases item with
  | none => trivial
  | some item =>
      dsimp only
      rw [wp_ite]
      split
      · trivial
      · rw [wp_ite]
        split
        · trivial
        · rw [wp_bind, wp_get, if_pos hm₁]
          refine again_dbCall ?_ ?_ fun m₂ hq => hq
          · intro e he
            cases he
          · intro _ m₂
            trivial

theorem again_applySweep (hc : Coherent m.quiet) (atMs : Int) : Again (applySweep atMs) m := by
  unfold Again applySweep
  rw [wp_bind, wp_get, if_pos (show m.useDb = true from hc.useDb)]
  refine again_dbCall ?_ ?_ ?_
  · intro e he
    cases he
  · intro _ m'
    trivial
  · intro m' hq
    rw [hq]
    exact ⟨hc, rfl⟩

/-- A command that a failing call stopped can be run again. -/
theorem command_again (hc : Coherent m.quiet) (entry : LogEntry) : Again (applyCommand entry) m := by
  unfold applyCommand
  cases hv : entry.verb with
  | error e =>
      intro he
      subst he
      exact absurd hv (verb_ne_database entry)
  | ok verb =>
      cases verb with
      | signup => exact again_map _ (again_applySignup hc _)
      | set => exact again_map _ (again_applySet hc _ _)
      | delete => exact again_map _ (again_applyDelete hc _)
      | expiry => exact again_map _ (again_applyExpiry hc _ _)
      | sweep => exact again_map _ (again_applySweep hc _)
      | unknown => trivial

end Again

end KvCache
