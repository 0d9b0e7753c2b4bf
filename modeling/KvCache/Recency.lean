import KvCache.LruCache

/-!
# The caches against a recency list

What an LRU cache is for, said without a dictionary: a list of pairs in the
order of their last use, of which the first is dropped when a new key finds
the list full (`RecencyList`). The cache of `cache/lru_cache.py` with its
eviction counter gives the same answers as this list over any sequence of
operations, with the same items in the same order (`lru_cache_is_recency_list`),
and the answers of the plain cache of `cache/cache_impl.py` as long as that one
holds no more keys than the capacity.
-/

/-! ## Recency lists -/

/-- Pairs, least recently used first, and how many were dropped. -/
structure RecencyList (κ υ : Type) where
  items : List (κ × υ) := []
  dropped : Nat := 0

namespace RecencyList

variable {κ υ : Type} [DecidableEq κ]

/-- The pair of `k` becomes the last one. -/
def touch (r : RecencyList κ υ) (k : κ) (v : υ) : RecencyList κ υ :=
  { r with items := r.items.filter (fun p => p.1 ≠ k) ++ [(k, v)] }

def set (capacity : Nat) (r : RecencyList κ υ) (k : κ) (v : υ) : RecencyList κ υ :=
  if k ∈ r.items.map Prod.fst then r.touch k v
  else if r.items.length < capacity then { r with items := r.items ++ [(k, v)] }
  else { items := r.items.tail ++ [(k, v)], dropped := r.dropped + 1 }

def get (r : RecencyList κ υ) (k : κ) : Option υ × RecencyList κ υ :=
  match r.items.lookup k with
  | some v => (some v, r.touch k v)
  | none => (none, r)

def has (r : RecencyList κ υ) (k : κ) : Bool := k ∈ r.items.map Prod.fst

def delete (r : RecencyList κ υ) (k : κ) : Bool × RecencyList κ υ :=
  (r.has k, { r with items := r.items.filter fun p => p.1 ≠ k })

def clear (r : RecencyList κ υ) : RecencyList κ υ := { r with items := [] }

end RecencyList

namespace KvCache

/-! ## Operations and answers -/

/-- The operations of a cache. -/
inductive CacheOp where
  | set (key value : String)
  | get (key : String)
  | has (key : String)
  | delete (key : String)
  | clear

/-- `set` is only called with a key. -/
def CacheOp.Keyed : CacheOp → Prop
  | .set key _ => key ≠ ""
  | _ => True

inductive CacheAnswer where
  | done
  | value (v : Option String)
  | flag (b : Bool)
  | valueError (text : String)
deriving DecidableEq

/-- Run operations one after the other, and collect the answers. -/
def runOps {σ : Type} (step : σ → CacheOp → CacheAnswer × σ) : σ → List CacheOp →
    List CacheAnswer × σ
  | s, [] => ([], s)
  | s, op :: ops =>
      let (answer, s) := step s op
      let (answers, s) := runOps step s ops
      (answer :: answers, s)

/-! ## The LRU cache with its counter -/

structure CountedCache where
  cache : LRUCache
  evictionCount : Nat := 0

namespace CountedCache

def new (capacity : Nat) (h : 0 < capacity) : CountedCache := { cache := LRUCache.empty capacity h }

/-- Store the pair once the key is known to be one. -/
def insert (c : CountedCache) (key value : String) : CountedCache where
  cache := c.cache.insert key value
  evictionCount :=
    if c.cache.data.contains key then c.evictionCount
    else if c.cache.isFull then c.evictionCount + 1
    else c.evictionCount

def set (c : CountedCache) (key value : String) : CacheAnswer × CountedCache :=
  if key = "" then (.valueError "Key cannot be empty", c)
  else (.done, c.insert key value)

def clear (c : CountedCache) : CountedCache :=
  { c with cache := LRUCache.empty c.cache.capacity c.cache.positive }

def size (c : CountedCache) : Nat := c.cache.data.size

def items (c : CountedCache) : List (String × String) := c.cache.items

def step (c : CountedCache) : CacheOp → CacheAnswer × CountedCache
  | .set key value => c.set key value
  | .get key => (.value (c.cache.get key).1, { c with cache := (c.cache.get key).2 })
  | .has key => (.flag (c.cache.has key), c)
  | .delete key => (.flag (c.cache.delete key).1, { c with cache := (c.cache.delete key).2 })
  | .clear => (.done, c.clear)

end CountedCache

/-! ## The plain cache -/

structure Cache where
  data : Dict String String := Dict.empty

namespace Cache

def set (c : Cache) (key value : String) : CacheAnswer × Cache :=
  if key = "" then (.valueError "Key cannot be empty", c)
  else (.done, { data := c.data.set key value })

def get (c : Cache) (key : String) : Option String := c.data.get? key

def has (c : Cache) (key : String) : Bool := c.data.contains key

def delete (c : Cache) (key : String) : Bool × Cache :=
  if c.data.contains key then (true, { data := c.data.erase key }) else (false, c)

def clear (_ : Cache) : Cache := { data := Dict.empty }

def size (c : Cache) : Nat := c.data.size

def step (c : Cache) : CacheOp → CacheAnswer × Cache
  | .set key value => c.set key value
  | .get key => (.value (c.get key), c)
  | .has key => (.flag (c.has key), c)
  | .delete key => (.flag (c.delete key).1, (c.delete key).2)
  | .clear => (.done, c.clear)

end Cache

/-- The operations of a cache on a recency list. -/
def recencyStep (capacity : Nat) (r : RecencyList String String) :
    CacheOp → CacheAnswer × RecencyList String String
  | .set key value => (.done, r.set capacity key value)
  | .get key => (.value (r.get key).1, (r.get key).2)
  | .has key => (.flag (r.has key), r)
  | .delete key => (.flag (r.delete key).1, (r.delete key).2)
  | .clear => (.done, r.clear)

/-! ## Simulations -/

/-- Steps that give equal answers and keep a relation make runs that do. -/
theorem runOps_simulates {σ τ : Type} {step : σ → CacheOp → CacheAnswer × σ}
    {step' : τ → CacheOp → CacheAnswer × τ} {R : σ → τ → Prop} {ops : List CacheOp}
    (hstep : ∀ op ∈ ops, ∀ s t, R s t →
      (step s op).1 = (step' t op).1 ∧ R (step s op).2 (step' t op).2) {s : σ} {t : τ}
    (h : R s t) :
    (runOps step s ops).1 = (runOps step' t ops).1 ∧
      R (runOps step s ops).2 (runOps step' t ops).2 := by
  induction ops generalizing s t with
  | nil => exact ⟨rfl, h⟩
  | cons op ops ih =>
      obtain ⟨hanswer, hnext⟩ := hstep op List.mem_cons_self s t h
      obtain ⟨hanswers, hlast⟩ := ih (fun op' hm => hstep op' (List.mem_cons_of_mem op hm)) hnext
      exact ⟨congrArg₂ List.cons hanswer hanswers, hlast⟩

theorem keys_mem_iff {d : Dict String String} {key : String} :
    key ∈ d.items.map Prod.fst ↔ d.contains key = true := Dict.contains_iff.symm

/-! ### The list of the LRU cache -/

/-- The list a counted cache stands for. -/
def CountedCache.recency (c : CountedCache) : RecencyList String String :=
  ⟨c.items, c.evictionCount⟩

section Recency

variable {c : CountedCache} {key value : String}

theorem items_moveToEnd {d : Dict String String} (h : d.get? key = some value) :
    (d.moveToEnd key).items = d.items.filter (fun p => p.1 ≠ key) ++ [(key, value)] := by
  unfold Dict.moveToEnd
  rw [h]
  rfl

/-- An update puts the new value last. -/
theorem items_moveToEnd_set {d : Dict String String} (h : d.contains key = true) :
    ((d.moveToEnd key).set key value).items
      = d.items.filter (fun p => p.1 ≠ key) ++ [(key, value)] := by
  obtain ⟨v, hv⟩ := Dict.mem_keys.mp (Dict.contains_iff.mp h)
  have hc : (d.moveToEnd key).contains key = true := by
    rw [Dict.contains, Dict.get?_moveToEnd, hv]
    rfl
  rw [Dict.set, if_pos hc]
  simp only [Dict.replace]
  rw [items_moveToEnd hv, List.map_append, List.map_singleton, if_pos rfl]
  refine congrArg (· ++ [(key, value)]) ((List.map_congr_left fun p hp => ?_).trans (List.map_id _))
  rw [if_neg (by simpa using (List.mem_filter.mp hp).2)]
  rfl

theorem recency_insert (c : CountedCache) (key value : String) :
    (c.insert key value).recency = c.recency.set c.cache.capacity key value := by
  unfold CountedCache.recency CountedCache.insert RecencyList.set CountedCache.items LRUCache.items
  cases hk : c.cache.data.contains key with
  | true =>
      rw [if_pos (keys_mem_iff.mpr hk), if_pos rfl]
      unfold LRUCache.insert
      rw [dif_pos hk]
      exact congrArg (RecencyList.mk · _) (items_moveToEnd_set hk)
  | false =>
      have hnone : c.cache.data.get? key = none := Dict.contains_eq_false.mp hk
      have hmem : ¬ key ∈ c.cache.data.items.map Prod.fst := by
        rw [keys_mem_iff, hk]
        exact Bool.false_ne_true
      rw [if_neg hmem]
      cases hf : c.cache.isFull with
      | false =>
          have hroom : c.cache.data.items.length < c.cache.capacity :=
            Nat.lt_of_not_le (of_decide_eq_false hf)
          rw [if_pos hroom, LRUCache.items_insert_new value hnone hf]
          rfl
      | true =>
          have hroom : ¬ c.cache.data.items.length < c.cache.capacity :=
            Nat.not_lt_of_le (of_decide_eq_true hf)
          have hpop : c.cache.data.popFirst.get? key = none := by
            rw [Dict.get?_eq_none]
            exact fun v hv => Dict.get?_eq_none.mp hnone v (List.mem_of_mem_tail hv)
          rw [if_neg hroom]
          unfold LRUCache.insert
          rw [dif_neg (by simp [hk])]
          simp only [LRUCache.roomFor, hf, if_true]
          rw [Dict.set_of_get?_none hpop, Dict.items_putLast_of_get? hpop]
          rfl

theorem recency_get (c : CountedCache) (key : String) :
    ((c.cache.get key).1, ({ c with cache := (c.cache.get key).2 } : CountedCache).recency)
      = c.recency.get key := by
  unfold RecencyList.get CountedCache.recency CountedCache.items LRUCache.items LRUCache.get
  cases hk : c.cache.data.get? key with
  | some v =>
      have hl : c.cache.data.items.lookup key = some v := hk
      simp only [hl, RecencyList.touch]
      rw [← items_moveToEnd hk]
  | none =>
      have hl : c.cache.data.items.lookup key = none := hk
      have hsame : c.cache.data.moveToEnd key = c.cache.data := by
        unfold Dict.moveToEnd
        rw [hk]
      simp only [hl, hsame]

theorem has_eq (c : CountedCache) (key : String) : c.recency.has key = c.cache.has key := by
  unfold RecencyList.has CountedCache.recency CountedCache.items LRUCache.items LRUCache.has
  rw [Bool.eq_iff_iff, decide_eq_true_iff, keys_mem_iff]

/-- One operation on the cache and on its list. -/
theorem recency_step {op : CacheOp} (hop : op.Keyed) :
    (c.step op).1 = (recencyStep c.cache.capacity c.recency op).1 ∧
      (c.step op).2.recency = (recencyStep c.cache.capacity c.recency op).2 ∧
      (c.step op).2.cache.capacity = c.cache.capacity := by
  cases op with
  | set key value =>
      simp only [CountedCache.step, CountedCache.set, recencyStep]
      rw [if_neg hop]
      exact ⟨rfl, recency_insert c key value, LRUCache.capacity_insert _ _ _⟩
  | get key =>
      have h := recency_get c key
      exact ⟨congrArg CacheAnswer.value (congrArg Prod.fst h), congrArg Prod.snd h, rfl⟩
  | has key => exact ⟨congrArg CacheAnswer.flag (has_eq c key).symm, rfl, rfl⟩
  | delete key => exact ⟨congrArg CacheAnswer.flag (has_eq c key).symm, rfl, rfl⟩
  | clear => exact ⟨rfl, rfl, rfl⟩

/-- Any operations on the cache and on its list. -/
theorem recency_run {capacity : Nat} {ops : List CacheOp} (hops : ∀ op ∈ ops, op.Keyed)
    (hc : c.cache.capacity = capacity) :
    (runOps CountedCache.step c ops).1 = (runOps (recencyStep capacity) c.recency ops).1 ∧
      (runOps CountedCache.step c ops).2.recency = (runOps (recencyStep capacity) c.recency ops).2 ∧
      (runOps CountedCache.step c ops).2.cache.capacity = capacity := by
  refine runOps_simulates (R := fun (c : CountedCache) r => c.recency = r ∧ c.cache.capacity = capacity)
    ?_ ⟨rfl, hc⟩
  rintro op hm c _ ⟨rfl, rfl⟩
  exact recency_step (hops op hm)

end Recency

/-! ### The plain cache -/

theorem capacity_step (c : CountedCache) (op : CacheOp) :
    (c.step op).2.cache.capacity = c.cache.capacity := by
  cases op with
  | set key value =>
      simp only [CountedCache.step, CountedCache.set]
      split
      · rfl
      · exact LRUCache.capacity_insert _ _ _
  | get | has | delete | clear => rfl

section Plain

variable {c : CountedCache} {d : Cache} {key value : String}

/-- Both caches have the same keys with the same values. -/
def SameKeys (c : CountedCache) (d : Cache) : Prop := ∀ j, c.cache.data.get? j = d.data.get? j

theorem SameKeys.contains (h : SameKeys c d) (key : String) :
    c.cache.data.contains key = d.data.contains key := by
  rw [Dict.contains, Dict.contains, h key]

theorem SameKeys.size (h : SameKeys c d) : c.size = d.size := Dict.size_of_get? h

/-- No key is dropped while the plain cache does not outgrow the capacity. -/
theorem SameKeys.set (h : SameKeys c d)
    (hsize : ({ data := d.data.set key value } : Cache).size ≤ c.cache.capacity) :
    SameKeys (c.insert key value) { data := d.data.set key value } := by
  have hroom : c.cache.data.get? key = none → c.cache.isFull = false := by
    intro hnone
    have hd : d.data.get? key = none := (h key).symm.trans hnone
    rw [Cache.size, Dict.set_of_get?_none hd, Dict.size_putLast_of_get? hd] at hsize
    have hsame : c.cache.data.size = d.data.size := h.size
    exact decide_eq_false (by omega)
  intro j
  rw [Dict.get?_set, ← h j]
  exact LRUCache.get?_insert_of_room value j hroom

/-- One operation on both caches. -/
theorem SameKeys.step (h : SameKeys c d) {op : CacheOp}
    (hsize : (d.step op).2.size ≤ c.cache.capacity) :
    (c.step op).1 = (d.step op).1 ∧ SameKeys (c.step op).2 (d.step op).2 := by
  cases op with
  | set key value =>
      simp only [CountedCache.step, CountedCache.set, Cache.step, Cache.set] at hsize ⊢
      by_cases hk : key = ""
      · rw [if_pos hk, if_pos hk]
        exact ⟨rfl, h⟩
      · rw [if_neg hk] at hsize
        rw [if_neg hk, if_neg hk]
        exact ⟨rfl, h.set hsize⟩
  | get key =>
      refine ⟨congrArg CacheAnswer.value (h key), fun j => ?_⟩
      exact (LRUCache.get?_get c.cache key j).trans (h j)
  | has key => exact ⟨congrArg CacheAnswer.flag (h.contains key), h⟩
  | delete key =>
      have hc := h.contains key
      simp only [CountedCache.step, LRUCache.delete, Cache.step, Cache.delete]
      rw [hc]
      cases hk : d.data.contains key with
      | true =>
          refine ⟨rfl, fun j => ?_⟩
          change (c.cache.data.erase key).get? j = (d.data.erase key).get? j
          rw [Dict.get?_erase, Dict.get?_erase, h j]
      | false =>
          refine ⟨rfl, fun j => ?_⟩
          change (c.cache.data.erase key).get? j = d.data.get? j
          rw [Dict.erase_of_get? (Dict.contains_eq_false.mp (hc.trans hk))]
          exact h j
  | clear => exact ⟨rfl, fun _ => rfl⟩

/-- Any operations, as long as the plain cache fits. -/
theorem SameKeys.run {ops : List CacheOp} (h : SameKeys c d) {capacity : Nat}
    (hc : c.cache.capacity = capacity)
    (hfit : ∀ before, before <+: ops → (runOps Cache.step d before).2.size ≤ capacity) :
    (runOps CountedCache.step c ops).1 = (runOps Cache.step d ops).1 := by
  induction ops generalizing c d with
  | nil => rfl
  | cons op ops ih =>
      have hone : (d.step op).2.size ≤ c.cache.capacity :=
        hc ▸ hfit [op] (List.prefix_append [op] ops)
      obtain ⟨hanswer, hnext⟩ := h.step hone
      refine congrArg₂ List.cons hanswer (ih hnext ((capacity_step c op).trans hc) fun before hpre => ?_)
      exact hfit (op :: before) (List.cons_prefix_cons.mpr ⟨rfl, hpre⟩)

end Plain

/-- An LRU cache is a bounded recency list: the same answers, items, size and
evictions after any operations, and never more keys than its capacity. Where
the plain cache never outgrows the capacity, it also answers like that one. -/
theorem lru_cache_is_recency_list {capacity : Nat} (hpos : 0 < capacity) {ops : List CacheOp}
    (hops : ∀ op ∈ ops, op.Keyed) :
    let lru := runOps CountedCache.step (CountedCache.new capacity hpos) ops
    let list := runOps (recencyStep capacity) {} ops
    lru.1 = list.1 ∧ lru.2.items = list.2.items ∧ lru.2.size = list.2.items.length ∧
      lru.2.evictionCount = list.2.dropped ∧ lru.2.size ≤ capacity ∧
      ((∀ before, before <+: ops → (runOps Cache.step {} before).2.size ≤ capacity) →
        lru.1 = (runOps Cache.step {} ops).1) := by
  obtain ⟨hanswers, hlist, hcapacity⟩ :=
    recency_run (c := CountedCache.new capacity hpos) hops rfl
  have hfits := (runOps CountedCache.step (CountedCache.new capacity hpos) ops).2.cache.fits
  rw [hcapacity] at hfits
  refine ⟨hanswers, congrArg RecencyList.items hlist, ?_, congrArg RecencyList.dropped hlist, hfits,
    SameKeys.run (fun _ => rfl) rfl⟩
  exact congrArg (fun r : RecencyList String String => r.items.length) hlist

/-- Room for two keys, a read that saves the first from eviction. -/
def crowded : List CacheOp :=
  [.set "a" "1", .set "b" "2", .get "a", .set "c" "3", .has "b", .delete "c", .set "a" "4"]

theorem lru_cache_is_recency_list_crowded :
    (runOps CountedCache.step (CountedCache.new 2 (by decide)) crowded).1
      = (runOps (recencyStep 2) {} crowded).1 :=
  (lru_cache_is_recency_list (by decide) (by
    intro op hm
    simp only [crowded, List.mem_cons, List.not_mem_nil, or_false] at hm
    rcases hm with rfl | rfl | rfl | rfl | rfl | rfl | rfl <;> simp [CacheOp.Keyed])).1

end KvCache
