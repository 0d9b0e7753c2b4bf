import KvCache.Rebuild

/-!
# Snapshot transfer

A machine that loads the snapshot of another one goes on as the other one
does. In RAM the lines are put back store by store; with a database they
become the rows of new tables, which say the same of every user and key,
and the machine then reads its tables as at startup.
-/

namespace KvCache

open StateWp

/-! ## Session lines -/

theorem loads_dumps (r : Result) : Result.loads r.dumps = .ok r := by
  cases r with
  | none => rfl
  | bool b => cases b <;> rfl
  | int n =>
      have hne : ∀ text : String, PyText.number text.toList = none → n.repr ≠ text := by
        intro text ht heq
        rw [← heq, PyText.number_repr] at ht
        cases ht
      unfold Result.dumps Result.loads
      split
      · next h => exact absurd h (hne _ (by decide))
      · next h => exact absurd h (hne _ (by decide))
      · next h => exact absurd h (hne _ (by decide))
      · rw [PyText.number_repr]

/-- Reading the rows of sessions gives the sessions back. -/
theorem readSessions_rows {sessions : Sessions} {rows : Dict String SessionRow}
    (h : Dict.Rel (fun (s : Session) row => row = s.row) sessions rows) :
    readSessions rows.items = .ok sessions := by
  have hrows : rows.items = sessions.items.map fun p => (p.1, p.2.row) := by
    unfold Dict.Rel at h
    generalize rows.items = l at h
    generalize sessions.items = l' at h
    induction h with
    | nil => rfl
    | cons hpq _ ih =>
        rw [List.map_cons, ← ih]
        exact congrArg (· :: _) (Prod.ext hpq.1.symm hpq.2)
  have hread : ∀ l : List (String × Session),
      readSessions (l.map fun p => (p.1, p.2.row)) = .ok (Dict.ofList l) := by
    intro l
    induction l using List.reverseRecOn with
    | nil => rfl
    | append_singleton l p ih =>
        unfold readSessions at ih ⊢
        rw [List.map_append, List.foldlM_append, ih, Dict.ofList_concat]
        simp only [List.map_cons, List.map_nil, List.foldlM_cons, List.foldlM_nil]
        rw [show Result.loads p.2.row.result = .ok p.2.result from loads_dumps _]
        rfl
  rw [hrows, hread]
  exact congrArg Except.ok (Dict.ext_items (Dict.items_ofList sessions.nodup))

/-! ## Lines into RAM -/

section Ram

variable {m : CacheStateMachine} {acc : Stores × Sessions}

/-- What taking lines leaves: the machine as it was, and these stores and
sessions. -/
def Restores (m : CacheStateMachine) (acc : Stores × Sessions) (lines : List SnapshotRow)
    (Q : Stores × Sessions → Prop) : Prop :=
  wp (lines.foldlM restoreRow acc) (fun acc m' => m' = m ∧ Q acc) (fun _ _ => False) m

theorem Restores.append {lines lines' : List SnapshotRow} {P Q : Stores × Sessions → Prop}
    (h : Restores m acc lines P) (h' : ∀ acc, P acc → Restores m acc lines' Q) :
    Restores m acc (lines ++ lines') Q := by
  unfold Restores at *
  rw [List.foldlM_append, wp_bind]
  refine wp_mono h ?_ (fun _ _ h => h)
  rintro acc m' ⟨rfl, hp⟩
  exact h' acc hp

/-- User lines make new stores. -/
theorem restores_users (hc : 0 < m.capacity) (l : List Store) :
    Restores m acc (l.map fun s => .user s.username s.passwordHash)
      (fun acc' => acc' = (l.foldl (fun stores s =>
        stores.set s.username (Store.fresh s.username s.passwordHash m.capacity hc)) acc.1,
        acc.2)) := by
  unfold Restores
  induction l generalizing acc with
  | nil => exact ⟨rfl, rfl⟩
  | cons s l ih =>
      rw [List.map_cons, List.foldlM_cons, wp_bind]
      unfold restoreRow newStore
      simp only [wp_bind, wp_get, hc, dite_true, wp_pure]
      exact ih

/-- The entry lines of one user. -/
theorem restores_entries {username : String} (expiry : String → Option Int)
    {l : List (String × String)} (hl : ∀ p ∈ l, p.1 ≠ "") {t : Store}
    (ht : acc.1.get? username = some t) :
    Restores m acc (l.map fun p => .entry username p.1 p.2 (expiry p.1))
      (fun acc' => acc' = (acc.1.set username
        (l.foldl (fun t p => t.putBack p (expiry p.1)) t), acc.2)) := by
  unfold Restores
  induction l generalizing acc t with
  | nil =>
      refine ⟨rfl, ?_⟩
      rw [List.foldl_nil, Dict.set_of_get? ht]
  | cons p l ih =>
      rw [List.map_cons, List.foldlM_cons, wp_bind]
      unfold restoreRow Store.cacheSet
      dsimp only
      rw [ht]
      dsimp only
      rw [wp_bind, if_neg (hl p (by simp)), wp_pure, wp_pure]
      have hput : (if (expiry p.1).isSome then (t.put p.1 p.2).setExpiry p.1 (expiry p.1)
          else t.put p.1 p.2) = t.putBack p (expiry p.1) := rfl
      rw [hput]
      have hget : (acc.1.set username (t.putBack p (expiry p.1))).get? username
          = some (t.putBack p (expiry p.1)) := by
        rw [Dict.get?_set, if_pos rfl]
      refine wp_mono (ih (fun q hq => hl q (by simp [hq])) hget) ?_ (fun _ _ h => h)
      rintro acc' m' ⟨rfl, rfl⟩
      refine ⟨rfl, ?_⟩
      rw [Dict.set_set]
      rfl

/-- The entry lines of stores whose users are there: each store is rebuilt. -/
theorem restores_stores (hc : 0 < m.capacity) {l : List Store}
    (hn : (l.map Store.username).Nodup)
    (hl : ∀ s ∈ l, s.cache.capacity = m.capacity ∧ s.cache.data.get? "" = none)
    (hacc : ∀ s ∈ l, acc.1.get? s.username
      = some (Store.fresh s.username s.passwordHash m.capacity hc)) :
    Restores m acc (l.flatMap fun s =>
        s.cache.items.map fun p => .entry s.username p.1 p.2 (s.expiry.get? p.1))
      (fun acc' => acc'.1.keys = acc.1.keys ∧ acc'.2 = acc.2 ∧
        (∀ s ∈ l, ∃ t, acc'.1.get? s.username = some t ∧ Rebuilt s t) ∧
        ∀ u, u ∉ l.map Store.username → acc'.1.get? u = acc.1.get? u) := by
  induction l generalizing acc with
  | nil =>
      refine ⟨rfl, rfl, rfl, ?_, fun u _ => rfl⟩
      intro s hs
      cases hs
  | cons s l ih =>
      rw [List.map_cons, List.nodup_cons] at hn
      obtain ⟨hcap, hkey⟩ := hl s (by simp)
      have hblank : ∀ p ∈ s.cache.items, p.1 ≠ "" := by
        rintro ⟨k, v⟩ hp rfl
        exact Dict.get?_eq_none.mp hkey v hp
      have hfits : s.cache.items.length ≤ m.capacity := hcap ▸ s.cache.fits
      obtain ⟨h₁, h₂, h₃, h₄, h₅⟩ := putBack_all s.username s.passwordHash hc (fun k => s.expiry.get? k) s.cache.data.nodup hfits
      rw [List.flatMap_cons]
      refine (restores_entries (fun k => s.expiry.get? k) hblank (hacc s (by simp))).append ?_
      rintro acc' rfl
      set t := s.cache.items.foldl (fun t p => t.putBack p (s.expiry.get? p.1))
        (Store.fresh s.username s.passwordHash m.capacity hc) with ht
      have hother : ∀ u, u ≠ s.username →
          (acc.1.set s.username t).get? u = acc.1.get? u := by
        intro u hu
        rw [Dict.get?_set, if_neg hu]
      have hrebuilt : Rebuilt s t := by
        have hcache : s.cache = t.cache :=
          LRUCache.ext_data (hcap.trans h₃.symm) (Dict.ext_items h₄.symm)
        refine ⟨h₁.symm, h₂.symm, hcache, ?_⟩
        intro k
        rw [Store.peek, Store.peek, ← hcache]
        cases hk : s.cache.data.get? k with
        | none => rfl
        | some v =>
            have hmem : k ∈ s.cache.data.keys := Dict.mem_keys.mpr ⟨v, hk⟩
            have he : t.expiry.get? k = s.expiry.get? k := (h₅ k).trans (if_pos hmem)
            rw [he]
      refine wp_mono (ih hn.2 (fun s' hs' => hl s' (by simp [hs'])) ?_) ?_ (fun _ _ h => h)
      · intro s' hs'
        have hne : s'.username ≠ s.username := by
          intro heq
          exact hn.1 (List.mem_map.mpr ⟨s', hs', heq⟩)
        rw [hother _ hne]
        exact hacc s' (by simp [hs'])
      · rintro acc' m' ⟨rfl, hkeys, hss, hall, hrest⟩
        refine ⟨rfl, ?_, hss, ?_, ?_⟩
        · refine hkeys.trans (Dict.keys_set_of_contains ?_)
          simp [Dict.contains, hacc s (by simp)]
        · intro s' hs'
          rcases List.mem_cons.mp hs' with rfl | hs'
          · refine ⟨t, ?_, hrebuilt⟩
            rw [hrest _ hn.1, Dict.get?_set, if_pos rfl]
          · exact hall s' hs'
        · intro u hu
          rw [List.map_cons, List.mem_cons, not_or] at hu
          rw [hrest u hu.2, hother u hu.1]

/-- Session lines give the sessions back. -/
theorem restores_sessions {stores : Stores} (l : List (String × Session)) :
    Restores m (stores, Dict.empty) (l.map fun p => .session p.1 p.2.seq p.2.result.dumps p.2.index)
      (fun acc' => acc' = (stores, Dict.ofList l)) := by
  induction l using List.reverseRecOn with
  | nil => exact ⟨rfl, rfl⟩
  | append_singleton l p ih =>
      rw [List.map_append]
      refine ih.append ?_
      rintro acc rfl
      unfold Restores
      rw [List.map_cons, List.map_nil, List.foldlM_cons, wp_bind]
      unfold restoreRow
      dsimp only
      rw [loads_dumps, Dict.ofList_concat]
      exact ⟨rfl, rfl⟩

/-- The lines of a tidy machine's snapshot, taken into RAM. -/
theorem restores_ramSnapshot (m₀ : CacheStateMachine) (h : Tidy m.capacity m₀.stores) :
    Restores m (Dict.empty, Dict.empty) (ramSnapshot m₀)
      (fun acc' => Dict.Rel Rebuilt m₀.stores acc'.1 ∧ acc'.2 = m₀.sessions) := by
  have hsessions : Dict.ofList m₀.sessions.items = m₀.sessions :=
    Dict.ext_items (Dict.items_ofList m₀.sessions.nodup)
  have hget : ∀ p ∈ m₀.stores.items, m₀.stores.get? p.1 = some p.2 := by
    intro p hp
    exact Dict.get?_eq_some.mpr hp
  have hnames : m₀.stores.values.map Store.username = m₀.stores.keys := by
    rw [Dict.values, List.map_map]
    refine List.map_congr_left ?_
    intro p hp
    exact h.name _ _ (hget p hp)
  unfold ramSnapshot
  by_cases hc : 0 < m.capacity
  · have husers : Restores m (Dict.empty, Dict.empty) _ _ := restores_users hc m₀.stores.values
    have hstores : Restores m (Dict.empty, Dict.empty)
        (m₀.stores.values.map (fun s => .user s.username s.passwordHash) ++
          m₀.stores.values.flatMap fun s => s.cache.items.map fun p =>
            .entry s.username p.1 p.2 (s.expiry.get? p.1))
        (fun acc' => acc'.1.keys = m₀.stores.keys ∧ acc'.2 = Dict.empty ∧
          ∀ s ∈ m₀.stores.values, ∃ t, acc'.1.get? s.username = some t ∧ Rebuilt s t) := by
      refine husers.append ?_
      rintro acc rfl
      have hfold : m₀.stores.values.foldl (fun stores s => stores.set s.username
            (Store.fresh s.username s.passwordHash m.capacity hc)) Dict.empty
          = Dict.ofList (m₀.stores.values.map fun s =>
            (s.username, Store.fresh s.username s.passwordHash m.capacity hc)) := by
        rw [Dict.ofList, List.foldl_map]
      have hkeys : (m₀.stores.values.map fun s =>
          (s.username, Store.fresh s.username s.passwordHash m.capacity hc)).map Prod.fst
          = m₀.stores.keys := by
        rw [List.map_map]
        exact hnames
      have hnodup : ((m₀.stores.values.map fun s =>
          (s.username, Store.fresh s.username s.passwordHash m.capacity hc)).map Prod.fst).Nodup := by
        rw [hkeys]
        exact m₀.stores.nodup
      have hnodup' : (m₀.stores.values.map Store.username).Nodup := by
        rw [hnames]
        exact m₀.stores.nodup
      dsimp only
      rw [hfold]
      refine wp_mono (restores_stores hc hnodup' ?_ ?_) ?_ (fun _ _ h => h)
      · intro s hs
        obtain ⟨p, hp, rfl⟩ := List.mem_map.mp hs
        exact ⟨h.size _ _ (hget p hp), h.keys _ _ (hget p hp)⟩
      · intro s hs
        rw [Dict.get?_ofList_of_nodup hnodup]
        exact List.mem_map_of_mem hs
      · rintro acc m' ⟨rfl, hk, hss, hall, -⟩
        exact ⟨rfl, hk.trans ((Dict.keys_ofList hnodup).trans hkeys), hss, hall⟩
    refine hstores.append ?_
    rintro ⟨stores, sessions⟩ ⟨hk, rfl, hall⟩
    refine wp_mono (restores_sessions _) ?_ (fun _ _ h => h)
    rintro acc m' ⟨rfl, rfl⟩
    refine ⟨rfl, Dict.rel_of_keys hk.symm ?_, hsessions⟩
    intro u s t hs ht
    obtain ⟨t', ht', hst⟩ := hall s (List.mem_map.mpr ⟨(u, s), hs, rfl⟩)
    rw [h.name u s (hget _ hs)] at ht'
    rw [Dict.get?_eq_some.mpr ht] at ht'
    exact Option.some.inj ht' ▸ hst
  · -- a cache has a positive capacity, so there are no users
    have hempty : m₀.stores.items = [] := by
      refine List.eq_nil_iff_forall_not_mem.mpr ?_
      intro p hp
      have hsize := h.size _ _ (hget p hp)
      have := p.2.cache.positive
      omega
    have hstores : m₀.stores = Dict.empty := Dict.ext_items hempty
    rw [hstores]
    refine wp_mono (restores_sessions m₀.sessions.items) ?_ (fun _ _ h => h)
    rintro acc m' ⟨rfl, rfl⟩
    exact ⟨rfl, Dict.rel_empty, hsessions⟩

end Ram

/-! ## Lines into the database -/

namespace Database

/-- Inserting the lines leaves a database in `Q`. -/
def Inserts (db : Database) (lines : List SnapshotRow) (Q : Database → Prop) : Prop :=
  ∃ db', lines.foldlM insertRow db = .ok db' ∧ Q db'

theorem Inserts.append {db : Database} {lines lines' : List SnapshotRow} {P Q : Database → Prop}
    (h : db.Inserts lines P) (h' : ∀ db', P db' → db'.Inserts lines' Q) :
    db.Inserts (lines ++ lines') Q := by
  obtain ⟨db₁, h₁, hp⟩ := h
  obtain ⟨db₂, h₂, hq⟩ := h' db₁ hp
  refine ⟨db₂, ?_, hq⟩
  rw [List.foldlM_append, h₁]
  exact h₂

/-- Of a list without repeated keys, the last key is not among the others. -/
theorem get?_ofList_last {κ υ : Type} [DecidableEq κ] {l : List (κ × υ)} {p : κ × υ}
    (hn : ((l ++ [p]).map Prod.fst).Nodup) :
    (l.map Prod.fst).Nodup ∧ (Dict.ofList l).contains p.1 = false := by
  rw [List.map_append, List.nodup_append] at hn
  refine ⟨hn.1, ?_⟩
  rw [Dict.contains_eq_false, Dict.get?_eq_none, Dict.items_ofList hn.1]
  intro v hv
  exact hn.2.2 _ (List.mem_map.mpr ⟨_, hv, rfl⟩) p.1 (by simp) rfl

theorem inserts_users (clock : List Int) {l : List (String × String)}
    (hn : (l.map Prod.fst).Nodup) :
    (empty clock).Inserts (l.map fun p => .user p.1 p.2)
      (fun db => db.users = Dict.ofList l ∧ db.entries = Dict.empty ∧ db.sessions = Dict.empty) := by
  induction l using List.reverseRecOn with
  | nil => exact ⟨empty clock, rfl, rfl, rfl, rfl⟩
  | append_singleton l p ih =>
      obtain ⟨hn', hnew⟩ := get?_ofList_last hn
      rw [List.map_append]
      refine (ih hn').append ?_
      rintro db ⟨hu, he, hs⟩
      have hsave : ∃ db', db.saveUser p.1 p.2 = .ok db' ∧
          db'.users = db.users.set p.1 p.2 ∧ db'.entries = db.entries ∧
          db'.sessions = db.sessions := by
        have hfree : db.users.contains p.1 = false := by
          rw [hu]
          exact hnew
        unfold saveUser
        rw [if_neg (by simp [hfree])]
        exact ⟨_, rfl, rfl, rfl, rfl⟩
      obtain ⟨db', hdb', hu', he', hs'⟩ := hsave
      refine ⟨db', ?_, ?_, he'.trans he, hs'.trans hs⟩
      · rw [List.map_cons, List.map_nil, List.foldlM_cons]
        change (db.saveUser p.1 p.2 >>= fun init => pure init) = _
        rw [hdb']
        rfl
      · rw [hu', hu, Dict.ofList_concat]

theorem users_saveEntry (username key value : String) (expireAt : Option Int) (db : Database) :
    (db.saveEntry username key value expireAt).users = db.users := by
  unfold saveEntry
  split <;> rfl

theorem inserts_entries {db : Database} (hdb : db.entries = Dict.empty)
    {l : List ((String × String) × EntryRow)} (hn : (l.map Prod.fst).Nodup)
    (ho : ∀ p ∈ l, db.users.contains p.1.1 = true) :
    db.Inserts (l.map fun p => .entry p.1.1 p.1.2 p.2.value p.2.expireAt)
      (fun db' => db'.users = db.users ∧ db'.sessions = db.sessions ∧
        ∀ u k item, db'.reference.entries u k = some item ↔
          ∃ row, ((u, k), row) ∈ l ∧ (row.value, row.expireAt) = item) := by
  induction l using List.reverseRecOn with
  | nil =>
      refine ⟨db, rfl, rfl, rfl, ?_⟩
      intro u k item
      rw [entries_reference, hdb]
      simp
  | append_singleton l p ih =>
      obtain ⟨⟨u₀, k₀⟩, row₀⟩ := p
      have hnew := (get?_ofList_last hn).2
      have hn' := (get?_ofList_last hn).1
      rw [List.map_append]
      refine (ih hn' fun q hq => ho q (by simp [hq])).append ?_
      rintro db' ⟨hu, hs, hitems⟩
      have husers : db'.users.contains u₀ = true := by
        rw [hu]
        exact ho ((u₀, k₀), row₀) (by simp)
      have hfree : db'.entries.contains (u₀, k₀) = false := by
        rw [Dict.contains_eq_false]
        cases hget : db'.entries.get? (u₀, k₀) with
        | none => rfl
        | some row =>
            obtain ⟨row', hmem, -⟩ := (hitems u₀ k₀ _).mp (entries_eq_some.mpr ⟨row, hget, rfl, rfl⟩)
            rw [Dict.contains_eq_false, Dict.get?_eq_none, Dict.items_ofList hn'] at hnew
            exact absurd hmem (hnew row')
      refine ⟨db'.saveEntry u₀ k₀ row₀.value row₀.expireAt, ?_, ?_, ?_, ?_⟩
      · rw [List.map_cons, List.map_nil, List.foldlM_cons]
        have hins : db'.insertRow (.entry u₀ k₀ row₀.value row₀.expireAt)
            = .ok (db'.saveEntry u₀ k₀ row₀.value row₀.expireAt) := by
          unfold insertRow
          dsimp only
          rw [if_pos husers, hfree]
          rfl
        rw [hins]
        rfl
      · rw [users_saveEntry, hu]
      · rw [sessions_saveEntry, hs]
      · intro u k item
        rw [reference_saveEntry husers]
        simp only [Reference.update, List.mem_append, List.mem_singleton, Prod.mk.injEq]
        by_cases hp : u = u₀ ∧ k = k₀
        · obtain ⟨rfl, rfl⟩ := hp
          rw [if_pos ⟨rfl, rfl⟩, Option.some.injEq]
          constructor
          · intro heq
            exact ⟨row₀, Or.inr ⟨⟨rfl, rfl⟩, rfl⟩, heq⟩
          · rintro ⟨row, hmem | ⟨-, rfl⟩, heq⟩
            · rw [Dict.contains_eq_false, Dict.get?_eq_none, Dict.items_ofList hn'] at hnew
              exact absurd hmem (hnew row)
            · exact heq
        · rw [if_neg hp, hitems]
          constructor
          · rintro ⟨row, hmem, heq⟩
            exact ⟨row, Or.inl hmem, heq⟩
          · rintro ⟨row, hmem | ⟨hk, -⟩, heq⟩
            · exact ⟨row, hmem, heq⟩
            · exact absurd hk hp

theorem inserts_sessions {db : Database} (hdb : db.sessions = Dict.empty)
    {l : List (String × SessionRow)} (hn : (l.map Prod.fst).Nodup) :
    db.Inserts (l.map fun p => .session p.1 p.2.lastSeq p.2.result p.2.lastIndex)
      (fun db' => db'.users = db.users ∧ db'.reference = db.reference ∧
        db'.sessions = Dict.ofList l) := by
  induction l using List.reverseRecOn with
  | nil => exact ⟨db, rfl, rfl, rfl, hdb⟩
  | append_singleton l p ih =>
      obtain ⟨hn', hnew⟩ := get?_ofList_last hn
      rw [List.map_append]
      refine (ih hn').append ?_
      rintro db' ⟨hu, hr, hs⟩
      refine ⟨db'.saveSession p.1 p.2.lastSeq p.2.result p.2.lastIndex, ?_, hu, hr, ?_⟩
      · rw [List.map_cons, List.map_nil, List.foldlM_cons]
        have hins : db'.insertRow (.session p.1 p.2.lastSeq p.2.result p.2.lastIndex)
            = .ok (db'.saveSession p.1 p.2.lastSeq p.2.result p.2.lastIndex) := by
          unfold insertRow
          dsimp only
          rw [hs, hnew]
          rfl
        rw [hins]
        rfl
      · rw [Dict.ofList_concat, ← hs]
        rfl

/-- Tables made from the lines of other tables hold the same data. -/
theorem replaceFrom_dumpTo (db db₀ : Database) :
    ∃ db', db₀.replaceFrom db.dumpTo = .ok db' ∧ db'.users = db.users ∧
      db'.reference = db.reference ∧ db'.sessions = db.sessions := by
  have husers : Dict.ofList db.users.items = db.users :=
    Dict.ext_items (Dict.items_ofList db.users.nodup)
  have hsessions : Dict.ofList db.sessions.items = db.sessions :=
    Dict.ext_items (Dict.items_ofList db.sessions.nodup)
  have hperm := List.perm_insertionSort (fun a b => a.2.updatedAt ≤ b.2.updatedAt) db.entries.items
  have h : (empty db₀.clock).Inserts db.dumpTo (fun db' => db'.users = db.users ∧
      db'.reference = db.reference ∧ db'.sessions = db.sessions) := by
    unfold dumpTo
    refine ((inserts_users db₀.clock db.users.nodup).append ?_).append
      (P := fun db' => db'.users = db.users ∧ db'.sessions = Dict.empty ∧
        db'.reference = db.reference) ?_
    · rintro db₁ ⟨hu, he, hs⟩
      rw [husers] at hu
      obtain ⟨db₂, hrun, hu₂, hs₂, hitems⟩ := inserts_entries he
        ((hperm.map Prod.fst).nodup_iff.mpr db.entries.nodup) (fun p hp => by
          rw [hu]
          exact db.owned p (hperm.mem_iff.mp hp))
      refine ⟨db₂, hrun, hu₂.trans hu, hs₂.trans hs, Reference.ext' ?_ ?_⟩
      · intro u
        rw [users_reference, users_reference, hu₂, hu]
      · intro u k
        refine Option.ext ?_
        rintro ⟨v, e⟩
        rw [hitems, entries_eq_some]
        constructor
        · rintro ⟨row, hmem, heq⟩
          obtain ⟨hv, he'⟩ := Prod.mk.inj heq
          exact ⟨row, Dict.get?_eq_some.mpr (hperm.mem_iff.mp hmem), hv, he'⟩
        · rintro ⟨row, hrow, rfl, rfl⟩
          exact ⟨row, hperm.mem_iff.mpr (Dict.get?_eq_some.mp hrow), rfl⟩
    · rintro db₂ ⟨hu, hs, hr⟩
      obtain ⟨db₃, hrun, hu₃, hr₃, hs₃⟩ := inserts_sessions hs db.sessions.nodup
      exact ⟨db₃, hrun, hu₃.trans hu, hr₃.trans hr, hs₃.trans hsessions⟩
  obtain ⟨db', hrun, hq⟩ := h
  exact ⟨db', hrun, hq⟩

end Database

end KvCache
