import KvCache.DbRuns

/-!
# Stores rebuilt from a snapshot

The lines of a RAM snapshot give back every store but for the expiry times
of evicted keys, which nothing sees (`Rebuilt`): putting the pairs back from
the least to the most recently used one gives the cache its order again.
-/

namespace KvCache

open StateWp

/-- The same store, but for the expiry times of keys it does not hold. -/
structure Rebuilt (s t : Store) : Prop where
  username : s.username = t.username
  passwordHash : s.passwordHash = t.passwordHash
  cache : s.cache = t.cache
  peek : ∀ k, s.peek k = t.peek k

/-! ## Sweeps -/

/-- A sweep takes the due keys from the cache and keeps the order of the
others. -/
theorem items_sweep (s : Store) (atMs : Int) :
    (s.sweep atMs).2.cache.data.items
      = s.cache.data.items.filter fun p => decide (p.1 ∉ s.due atMs) := by
  unfold Store.sweep
  generalize s.due atMs = l
  generalize 0 = n
  induction l generalizing s n with
  | nil => simp
  | cons k l ih =>
      rw [List.foldl_cons, ih]
      change (s.cache.data.items.filter fun p => decide (p.1 ≠ k)).filter _ = _
      rw [List.filter_filter]
      refine List.filter_congr ?_
      intro p _
      by_cases hp : p.1 = k <;> simp [hp]

/-- What a sweep counts is what the cache has lost. -/
theorem count_sweep (s : Store) (atMs : Int) :
    (s.sweep atMs).1 + (s.sweep atMs).2.cache.data.size = s.cache.data.size := by
  unfold Store.sweep
  generalize s.due atMs = l
  have hgen (n : Nat) : ∀ s : Store, (l.foldl (fun acc key =>
      (acc.1 + (acc.2.cache.delete key).1.toNat, (acc.2.uncache key).setExpiry key none))
        (n, s)).1 + (l.foldl (fun acc key =>
      (acc.1 + (acc.2.cache.delete key).1.toNat, (acc.2.uncache key).setExpiry key none))
        (n, s)).2.cache.data.size = n + s.cache.data.size := by
    induction l generalizing n with
    | nil =>
        intro s
        rfl
    | cons k l ih =>
        intro s
        rw [List.foldl_cons, ih]
        have hsize : (s.cache.delete k).1.toNat + (s.cache.data.erase k).size
            = s.cache.data.size := by
          change (s.cache.data.contains k).toNat + _ = _
          cases hk : s.cache.data.get? k with
          | none =>
              rw [Dict.erase_of_get? hk, Dict.contains_eq_false.mpr hk]
              exact Nat.zero_add _
          | some v =>
              have hc : s.cache.data.contains k = true := by simp [Dict.contains, hk]
              have herase := Dict.size_erase_of_get? hk
              rw [hc, Bool.toNat_true]
              omega
        change n + (s.cache.delete k).1.toNat + (s.cache.data.erase k).size = _
        omega
  have h := hgen 0 s
  rw [Nat.zero_add] at h
  exact h

section Rebuilt

variable {s t : Store}

theorem Rebuilt.refl (s : Store) : Rebuilt s s := ⟨rfl, rfl, rfl, fun _ => rfl⟩

/-- Keys in the cache have the same expiry time. -/
theorem Rebuilt.expiry (h : Rebuilt s t) {k v : String} (hk : s.cache.data.get? k = some v) :
    s.expiry.get? k = t.expiry.get? k := by
  have hp := h.peek k
  rw [Store.peek, Store.peek, ← h.cache, hk] at hp
  exact (Prod.mk.inj (Option.some.inj hp)).2

theorem Rebuilt.due_iff (h : Rebuilt s t) {k v : String} (hk : s.cache.data.get? k = some v)
    (atMs : Int) : k ∈ s.due atMs ↔ k ∈ t.due atMs := by
  rw [mem_due, mem_due, h.expiry hk]

theorem Rebuilt.setExpiry (h : Rebuilt s t) (key : String) (expireAt : Option Int) :
    Rebuilt (s.setExpiry key expireAt) (t.setExpiry key expireAt) where
  username := h.username
  passwordHash := h.passwordHash
  cache := h.cache
  peek k := by rw [peek_setExpiry, peek_setExpiry, h.peek k]

theorem Rebuilt.touch (h : Rebuilt s t) (key : String) :
    Rebuilt (s.touch key) (t.touch key) where
  username := h.username
  passwordHash := h.passwordHash
  cache := congrArg (fun c => (LRUCache.get c key).2) h.cache
  peek k := by rw [peek_touch, peek_touch, h.peek k]

theorem Rebuilt.uncache (h : Rebuilt s t) (key : String) :
    Rebuilt (s.uncache key) (t.uncache key) where
  username := h.username
  passwordHash := h.passwordHash
  cache := congrArg (fun c => (LRUCache.delete c key).2) h.cache
  peek k := by rw [peek_uncache, peek_uncache, h.peek k]

theorem Rebuilt.store (h : Rebuilt s t) (key value : String) (expireAt : Option Int) :
    Rebuilt ((s.put key value).setExpiry key expireAt)
      ((t.put key value).setExpiry key expireAt) where
  username := h.username
  passwordHash := h.passwordHash
  cache := congrArg (fun c => LRUCache.insert c key value) h.cache
  peek k := by
    rw [peek_setExpiry, peek_setExpiry, peek_put, peek_put, ← h.cache]
    cases hv : (s.cache.insert key value).data.get? k with
    | none => rfl
    | some v =>
        rcases get?_insert_cases hv with ⟨hk, -⟩ | ⟨hk, hs⟩
        · simp [hk]
        · rw [if_neg hk, if_neg hk, h.expiry hs]

theorem Rebuilt.sweep (h : Rebuilt s t) (atMs : Int) :
    (s.sweep atMs).1 = (t.sweep atMs).1 ∧ Rebuilt (s.sweep atMs).2 (t.sweep atMs).2 := by
  have hitems : (s.sweep atMs).2.cache.data.items = (t.sweep atMs).2.cache.data.items := by
    rw [items_sweep, items_sweep, ← h.cache]
    refine List.filter_congr ?_
    rintro ⟨k, v⟩ hp
    have hdue := h.due_iff (Dict.get?_eq_some.mpr hp) atMs
    exact decide_eq_decide.mpr (not_congr hdue)
  obtain ⟨hu, hh, hc⟩ := cache_sweep s atMs
  obtain ⟨hu', hh', hc'⟩ := cache_sweep t atMs
  refine ⟨?_, ⟨?_, ?_, ?_, ?_⟩⟩
  · have hs := count_sweep s atMs
    have ht := count_sweep t atMs
    rw [Dict.size, hitems] at hs
    rw [Dict.size, ← h.cache] at ht
    omega
  · rw [hu, hu', h.username]
  · rw [hh, hh', h.passwordHash]
  · refine LRUCache.ext_data ?_ (Dict.ext_items hitems)
    rw [hc, hc', h.cache]
  · intro k
    rw [peek_sweep, peek_sweep, ← h.peek k]
    cases hk : s.cache.data.get? k with
    | none =>
        have hp : s.peek k = none := by
          rw [Store.peek, hk]
          rfl
        rw [hp, ite_self, ite_self]
    | some v => exact if_congr (h.due_iff hk atMs) rfl rfl

/-- Verbs do not see the expiry times of keys that are not there. -/
theorem storeSim_rebuilt (capacity : Nat) :
    StoreSim capacity Rebuilt (fun _ _ => True) where
  fresh _ _ _ := Rebuilt.refl _
  peek h := h.peek
  touch h := h.touch
  store h key value expireAt _ _ := h.store key value expireAt
  drop h k := (h.uncache k).setExpiry k none
  expire h := h.setExpiry
  sweep h := h.sweep

end Rebuilt

/-! ## Putting pairs back -/

/-- One entry line on the store it belongs to. -/
def Store.putBack (t : Store) (p : String × String) (expireAt : Option Int) : Store :=
  if expireAt.isSome then (t.put p.1 p.2).setExpiry p.1 expireAt else t.put p.1 p.2

theorem Store.cache_putBack (t : Store) (p : String × String) (expireAt : Option Int) :
    (t.putBack p expireAt).cache = t.cache.insert p.1 p.2 := by
  unfold Store.putBack
  split <;> rfl

theorem Store.expiry_putBack {t : Store} {p : String × String} (expireAt : Option Int) (k : String)
    (hp : t.expiry.get? p.1 = none) :
    (t.putBack p expireAt).expiry.get? k = if k = p.1 then expireAt else t.expiry.get? k := by
  unfold Store.putBack
  cases expireAt with
  | some x => exact get?_setExpiry (t.put p.1 p.2) p.1 (some x) k
  | none =>
      split
      · next h => cases h
      · split
        · next hk =>
            rw [hk]
            exact hp
        · rfl

/-- Putting pairs back into a new user's store: they are in the cache in
their order, with the expiry times that came with them. -/
theorem putBack_all (username passwordHash : String) {capacity : Nat} (hc : 0 < capacity)
    (expiry : String → Option Int) {l : List (String × String)} (hn : (l.map Prod.fst).Nodup)
    (hl : l.length ≤ capacity) :
    let t := l.foldl (fun t p => t.putBack p (expiry p.1))
      (Store.fresh username passwordHash capacity hc)
    t.username = username ∧ t.passwordHash = passwordHash ∧ t.cache.capacity = capacity ∧
      t.cache.data.items = l ∧
      ∀ k, t.expiry.get? k = if k ∈ l.map Prod.fst then expiry k else none := by
  induction l using List.reverseRecOn with
  | nil => exact ⟨rfl, rfl, rfl, rfl, fun k => rfl⟩
  | append_singleton l p ih =>
      rw [List.map_append, List.nodup_append] at hn
      rw [List.length_append, List.length_singleton] at hl
      obtain ⟨h₁, h₂, h₃, h₄, h₅⟩ := ih hn.1 (by omega)
      rw [List.foldl_append]
      dsimp only [List.foldl_cons, List.foldl_nil]
      generalize l.foldl (fun t p => t.putBack p (expiry p.1))
        (Store.fresh username passwordHash capacity hc) = t at h₁ h₂ h₃ h₄ h₅
      have hnew : p.1 ∉ l.map Prod.fst := by
        intro hp
        exact hn.2.2 _ hp p.1 (by simp) rfl
      have hget : t.cache.data.get? p.1 = none := by
        rw [Dict.get?_eq_none, h₄]
        intro v hv
        exact hnew (List.mem_map.mpr ⟨_, hv, rfl⟩)
      have hroom : t.cache.isFull = false := by
        rw [LRUCache.isFull, h₃, Dict.size, h₄, decide_eq_false_iff_not]
        omega
      refine ⟨?_, ?_, ?_, ?_, ?_⟩
      · unfold Store.putBack
        split <;> exact h₁
      · unfold Store.putBack
        split <;> exact h₂
      · rw [Store.cache_putBack, LRUCache.capacity_insert, h₃]
      · rw [Store.cache_putBack, LRUCache.items_insert_new _ hget hroom, h₄]
      · intro k
        have he : t.expiry.get? p.1 = none := by rw [h₅, if_neg hnew]
        rw [Store.expiry_putBack _ _ he, h₅]
        simp only [List.map_append, List.map_cons, List.map_nil, List.mem_append,
          List.mem_singleton]
        by_cases hk : k = p.1
        · rw [if_pos hk, if_pos (Or.inr hk), hk]
        · rw [if_neg hk]
          exact if_congr (or_iff_left hk).symm rfl rfl

/-! ## A machine that can be rebuilt -/

/-- Each user's store carries the user's name, has the machine's capacity
and holds no empty key. -/
structure Tidy (capacity : Nat) (stores : Stores) : Prop where
  name : ∀ u s, stores.get? u = some s → s.username = u
  size : ∀ u s, stores.get? u = some s → s.cache.capacity = capacity
  keys : ∀ u s, stores.get? u = some s → s.cache.data.get? "" = none

section Tidy

variable {capacity : Nat} {stores : Stores} {username : String}

theorem tidy_empty : Tidy capacity Dict.empty := by
  refine ⟨?_, ?_, ?_⟩ <;> (intro u s hs; simp at hs)

theorem Tidy.set (h : Tidy capacity stores) {s : Store} (hn : s.username = username)
    (hc : s.cache.capacity = capacity) (hk : s.cache.data.get? "" = none) :
    Tidy capacity (stores.set username s) := by
  have hcases : ∀ u t, (stores.set username s).get? u = some t →
      (u = username ∧ t = s) ∨ stores.get? u = some t := by
    intro u t ht
    rw [Dict.get?_set] at ht
    split at ht
    · next hu => exact Or.inl ⟨hu, (Option.some.inj ht).symm⟩
    · exact Or.inr ht
  refine ⟨?_, ?_, ?_⟩
  · intro u t ht
    rcases hcases u t ht with ⟨rfl, rfl⟩ | ht
    · exact hn
    · exact h.name u t ht
  · intro u t ht
    rcases hcases u t ht with ⟨rfl, rfl⟩ | ht
    · exact hc
    · exact h.size u t ht
  · intro u t ht
    rcases hcases u t ht with ⟨rfl, rfl⟩ | ht
    · exact hk
    · exact h.keys u t ht

/-- Another store in the place of a user's store. -/
theorem Tidy.update (h : Tidy capacity stores) {s t : Store} (hs : stores.get? username = some s)
    (hn : t.username = s.username) (hc : t.cache.capacity = s.cache.capacity)
    (hk : t.cache.data.get? "" = none) : Tidy capacity (stores.set username t) :=
  h.set (hn.trans (h.name _ _ hs)) (hc.trans (h.size _ _ hs)) hk

theorem Tidy.touch (h : Tidy capacity stores) {s : Store} (hs : stores.get? username = some s)
    (key : String) : Tidy capacity (stores.set username (s.touch key)) := by
  exact h.update hs rfl rfl ((LRUCache.get?_get s.cache key "").trans (h.keys _ _ hs))

/-- Verbs keep stores tidy. -/
theorem tidy_verb (h : Tidy capacity stores) {verb : Verb} {r : Result} {stores' : Stores}
    (hrun : verb.ram username capacity stores = .ok (r, stores')) : Tidy capacity stores' := by
  cases verb with
  | signup passwordHash =>
      simp only [Verb.ram] at hrun
      split at hrun
      · cases hrun
        exact h
      · split at hrun
        · cases hrun
          exact h.set rfl rfl rfl
        · cases hrun
  | set key value expireAt =>
      simp only [Verb.ram] at hrun
      split at hrun
      · cases hrun
        exact h
      · next s hs =>
          split at hrun
          · cases hrun
          · next hk =>
              cases hrun
              refine h.update hs rfl (LRUCache.capacity_insert _ _ _) ?_
              change (s.cache.insert key value).data.get? "" = none
              cases hv : (s.cache.insert key value).data.get? "" with
              | none => rfl
              | some v =>
                  rcases get?_insert_cases hv with ⟨hk', -⟩ | ⟨-, hv⟩
                  · exact absurd hk'.symm hk
                  · rw [h.keys _ _ hs] at hv
                    cases hv
  | delete key atMs =>
      simp only [Verb.ram] at hrun
      split at hrun
      · cases hrun
        exact h
      · next s hs =>
          cases hrun
          rw [Dict.set_set]
          refine h.update hs rfl rfl ?_
          change ((s.touch key).cache.delete key).2.data.get? "" = none
          rw [LRUCache.get?_delete]
          split
          · rfl
          · exact (LRUCache.get?_get s.cache key "").trans (h.keys _ _ hs)
  | expiry key expireAt atMs =>
      simp only [Verb.ram] at hrun
      split at hrun
      · cases hrun
        exact h
      · next s hs =>
          split at hrun
          · cases hrun
            exact h.touch hs key
          · cases hrun
            rw [Dict.set_set]
            exact h.update hs rfl rfl ((LRUCache.get?_get s.cache key "").trans (h.keys _ _ hs))
  | sweep atMs =>
      simp only [Verb.ram] at hrun
      cases hrun
      have hall : ∀ u t, (stores.mapValues fun s => (s.sweep atMs).2).get? u = some t →
          ∃ s, stores.get? u = some s ∧ (s.sweep atMs).2 = t := fun u t ht =>
        Dict.get?_mapValues_eq_some.mp ht
      refine ⟨?_, ?_, ?_⟩
      · intro u t ht
        obtain ⟨s, hs, rfl⟩ := hall u t ht
        exact (cache_sweep s atMs).1.trans (h.name u s hs)
      · intro u t ht
        obtain ⟨s, hs, rfl⟩ := hall u t ht
        exact (cache_sweep s atMs).2.2.trans (h.size u s hs)
      · intro u t ht
        obtain ⟨s, hs, rfl⟩ := hall u t ht
        rw [Dict.get?_eq_none, items_sweep]
        intro v hv
        exact Dict.get?_eq_none.mp (h.keys u s hs) v (List.mem_of_mem_filter hv)
  | unknown =>
      cases hrun
      exact h

end Tidy

end KvCache
