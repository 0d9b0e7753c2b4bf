import KvCache.Dict

/-!
# The least-recently-used cache

`cache/lru_cache.py`: a dictionary whose order is the order of use, least
recently used first, and that never holds more keys than its capacity.
That the capacity is positive (the constructor raises otherwise) and that
the keys fit are fields, so a full cache always has a key to evict.

The eviction counter is beside it (`CountedCache` in `Recency`): the state
machine's stores never read it.
-/

namespace KvCache

structure LRUCache where
  capacity : Nat
  data : Dict String String
  positive : 0 < capacity
  fits : data.size ≤ capacity

namespace LRUCache

theorem ext_data : ∀ {c c' : LRUCache}, c.capacity = c'.capacity → c.data = c'.data → c = c'
  | ⟨_, _, _, _⟩, ⟨_, _, _, _⟩, rfl, rfl => rfl

instance : DecidableEq LRUCache := fun c c' =>
  decidable_of_iff (c.capacity = c'.capacity ∧ c.data = c'.data)
    ⟨fun h => ext_data h.1 h.2, fun h => h ▸ ⟨rfl, rfl⟩⟩

/-- A cache without keys. -/
def empty (capacity : Nat) (h : 0 < capacity) : LRUCache :=
  ⟨capacity, Dict.empty, h, Nat.zero_le _⟩

def isFull (c : LRUCache) : Bool := c.capacity ≤ c.data.size

/-- The data with room for one more key. -/
def roomFor (c : LRUCache) : Dict String String :=
  if c.isFull then c.data.popFirst else c.data

theorem size_roomFor_lt (c : LRUCache) : c.roomFor.size < c.capacity := by
  have h₁ := c.positive
  have h₂ := c.fits
  unfold roomFor isFull
  split
  · rw [Dict.size_popFirst]
    omega
  · next h =>
      simp only [decide_eq_true_eq] at h
      omega

/-- Store the pair as the most recently used one; a new key may evict the
least recently used one. (`set` once the key is known to be a key.) -/
def insert (c : LRUCache) (key value : String) : LRUCache :=
  if h : c.data.contains key then
    { c with
      data := (c.data.moveToEnd key).set key value
      fits := by
        obtain ⟨v, hv⟩ := Dict.mem_keys.mp (Dict.contains_iff.mp h)
        have hc : (c.data.moveToEnd key).contains key = true := by
          simp [Dict.contains, hv]
        rw [Dict.size_set_of_contains hc]
        exact Nat.le_trans (Dict.size_moveToEnd_le _ _) c.fits }
  else
    { c with
      data := c.roomFor.set key value
      fits := Nat.le_trans (Dict.size_set_le _ _ _) c.size_roomFor_lt }

/-- The value of a key, which becomes the most recently used one. -/
def get (c : LRUCache) (key : String) : Option String × LRUCache :=
  (c.data.get? key,
    { c with
      data := c.data.moveToEnd key
      fits := Nat.le_trans (Dict.size_moveToEnd_le _ _) c.fits })

/-- Is the key there? Its place in the order stays. -/
def has (c : LRUCache) (key : String) : Bool := c.data.contains key

/-- Remove a key; was it there? -/
def delete (c : LRUCache) (key : String) : Bool × LRUCache :=
  (c.data.contains key,
    { c with
      data := c.data.erase key
      fits := Nat.le_trans (Dict.size_erase_le _ _) c.fits })

/-- Every pair, least recently used first. -/
def items (c : LRUCache) : List (String × String) := c.data.items

/-! ## Lookups after an operation -/

@[simp] theorem capacity_insert (c : LRUCache) (key value : String) :
    (c.insert key value).capacity = c.capacity := by
  unfold insert
  split <;> rfl

theorem get?_insert (c : LRUCache) (key value j : String) :
    (c.insert key value).data.get? j =
      if j = key then some value
      else if c.data.contains key then c.data.get? j else c.roomFor.get? j := by
  unfold insert
  split <;> simp

/-- Nothing is evicted for a key that is there, or while there is room. -/
theorem get?_insert_of_room {c : LRUCache} {key : String} (value j : String)
    (h : c.data.get? key = none → c.isFull = false) :
    (c.insert key value).data.get? j = if j = key then some value else c.data.get? j := by
  rw [get?_insert]
  cases hk : c.data.get? key with
  | some v => simp [Dict.contains, hk]
  | none => simp [Dict.contains, hk, roomFor, h hk]

/-- A new key that fits comes last. -/
theorem items_insert_new {c : LRUCache} {key : String} (value : String)
    (hk : c.data.get? key = none) (hf : c.isFull = false) :
    (c.insert key value).data.items = c.data.items ++ [(key, value)] := by
  unfold insert
  rw [dif_neg (by simp [Dict.contains, hk])]
  simp only [roomFor, hf, Bool.false_eq_true, if_false, Dict.set_of_get?_none hk]
  exact Dict.items_putLast_of_get? hk

@[simp] theorem get?_get (c : LRUCache) (key j : String) :
    (c.get key).2.data.get? j = c.data.get? j := by
  simp [LRUCache.get]

@[simp] theorem get?_delete (c : LRUCache) (key j : String) :
    (c.delete key).2.data.get? j = if j = key then none else c.data.get? j := by
  simp [LRUCache.delete]

/-- A full cache stays full. -/
theorem size_insert_of_full {c : LRUCache} (hf : c.isFull = true) (key value : String) :
    (c.insert key value).data.size = c.capacity := by
  have hfits := c.fits
  have hpos := c.positive
  have hsize : c.data.size = c.capacity := by
    simp only [isFull, decide_eq_true_eq] at hf
    omega
  unfold insert
  cases hk : c.data.get? key with
  | some v =>
      have hc : (c.data.moveToEnd key).contains key = true := by simp [Dict.contains, hk]
      rw [dif_pos (by simp [Dict.contains, hk])]
      dsimp only
      rw [Dict.size_set_of_contains hc, ← hsize]
      exact Dict.size_of_get? fun j => Dict.get?_moveToEnd c.data key j
  | none =>
      have hroom : c.roomFor.get? key = none := by
        unfold roomFor
        rw [if_pos hf, Dict.get?_eq_none]
        intro v hv
        exact Dict.get?_eq_none.mp hk v (List.mem_of_mem_tail hv)
      rw [dif_neg (by simp [Dict.contains, hk])]
      dsimp only
      rw [Dict.set_of_get?_none hroom, Dict.size_putLast_of_get? hroom]
      unfold roomFor
      rw [if_pos hf, Dict.size_popFirst, hsize]
      omega

/-- A full cache of capacity one holds one key. -/
theorem items_of_full_one {c : LRUCache} (hc : c.capacity = 1) (hf : c.isFull = true) :
    ∃ p, c.data.items = [p] := by
  have h := c.fits
  simp only [isFull, decide_eq_true_eq] at hf
  have hs : c.data.items.length = 1 := by
    unfold Dict.size at h hf
    omega
  exact List.length_eq_one_iff.mp hs

end LRUCache

end KvCache
