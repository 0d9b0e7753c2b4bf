import Mathlib.Data.List.Nodup
import Mathlib.Data.List.Induction
import Mathlib.Data.List.Lookmap
import Mathlib.Data.List.Forall2
import Mathlib.Data.List.Perm.Subperm
import Mathlib.Data.Option.Basic

/-!
# Insertion-ordered dictionaries

A finite map that remembers the order in which its keys were first
inserted: setting a key that is there keeps its place, a new key goes to
the end. That no key occurs twice is a field of the structure, so every
lemma below is about the items as a set of pairs (`mem_set`, `mem_erase`)
or about lookups (`get?_set`, `get?_erase`), and the order only matters
where an operation speaks of it (`moveToEnd`, `popFirst`).
-/

/-- A dictionary: its items in insertion order, no key twice. -/
structure Dict (κ υ : Type) where
  items : List (κ × υ)
  nodup : (items.map Prod.fst).Nodup

namespace Dict

variable {κ υ : Type}

theorem ext_items : ∀ {d d' : Dict κ υ}, d.items = d'.items → d = d'
  | ⟨_, _⟩, ⟨_, _⟩, rfl => rfl

instance [DecidableEq κ] [DecidableEq υ] : DecidableEq (Dict κ υ) := fun d d' =>
  decidable_of_iff (d.items = d'.items) ⟨ext_items, fun h => h ▸ rfl⟩

/-- The dictionary without items. -/
def empty : Dict κ υ := ⟨[], List.nodup_nil⟩

instance : Inhabited (Dict κ υ) := ⟨empty⟩

def keys (d : Dict κ υ) : List κ := d.items.map Prod.fst

def values (d : Dict κ υ) : List υ := d.items.map Prod.snd

def size (d : Dict κ υ) : Nat := d.items.length

/-- The keys that satisfy `f`, with their values. -/
def filter (d : Dict κ υ) (f : κ × υ → Bool) : Dict κ υ :=
  ⟨d.items.filter f, d.nodup.sublist (List.filter_sublist.map _)⟩

/-- The dictionary with `f` applied to every value. -/
def mapValues {ω : Type} (d : Dict κ υ) (f : υ → ω) : Dict κ ω :=
  ⟨d.items.map fun p => (p.1, f p.2), by simpa [Function.comp_def] using d.nodup⟩

/-- The dictionary without its oldest item. -/
def popFirst (d : Dict κ υ) : Dict κ υ :=
  ⟨d.items.tail, d.nodup.sublist ((List.tail_sublist _).map _)⟩

variable [DecidableEq κ]

def get? (d : Dict κ υ) (k : κ) : Option υ := d.items.lookup k

def getD (d : Dict κ υ) (k : κ) (v : υ) : υ := (d.get? k).getD v

def contains (d : Dict κ υ) (k : κ) : Bool := (d.get? k).isSome

def erase (d : Dict κ υ) (k : κ) : Dict κ υ := d.filter (fun p => p.1 ≠ k)

omit [DecidableEq κ] in
theorem nodup_concat {l : List (κ × υ)} {k : κ} {v : υ} (hl : (l.map Prod.fst).Nodup)
    (hk : ∀ p ∈ l, p.1 ≠ k) : ((l ++ [(k, v)]).map Prod.fst).Nodup := by
  rw [List.map_append, List.nodup_append]
  refine ⟨hl, by simp, ?_⟩
  intro a ha b hb
  obtain ⟨p, hp, rfl⟩ := List.mem_map.mp ha
  obtain rfl : b = k := by simpa using hb
  exact hk p hp

/-- Set `k` to `v` in place. -/
def replace (d : Dict κ υ) (k : κ) (v : υ) : Dict κ υ :=
  ⟨d.items.map (fun p => if p.1 = k then (k, v) else p), by
    have h : (d.items.map (fun p => if p.1 = k then (k, v) else p)).map Prod.fst
        = d.items.map Prod.fst := by
      rw [List.map_map]
      refine List.map_congr_left fun p _ => ?_
      by_cases hp : p.1 = k <;> simp [hp]
    exact h ▸ d.nodup⟩

/-- Remove `k` and put it back at the end with the value `v`. -/
def putLast (d : Dict κ υ) (k : κ) (v : υ) : Dict κ υ :=
  ⟨(d.erase k).items ++ [(k, v)], nodup_concat (d.erase k).nodup (fun p hp => by
    simpa using (List.mem_filter.mp hp).2)⟩

/-- `d[k] = v`: in place if `k` is there, else at the end. -/
def set (d : Dict κ υ) (k : κ) (v : υ) : Dict κ υ :=
  if d.contains k then d.replace k v else d.putLast k v

/-- Make `k` the newest key, keeping its value. -/
def moveToEnd (d : Dict κ υ) (k : κ) : Dict κ υ :=
  match d.get? k with
  | some v => d.putLast k v
  | none => d

/-- Set the pairs of a list, one after the other. -/
def ofList (l : List (κ × υ)) : Dict κ υ := l.foldl (fun d p => d.set p.1 p.2) empty

/-- Equality as mappings: the same keys with the same values, in any order. -/
def sameItems [DecidableEq υ] (d d' : Dict κ υ) : Bool :=
  d.size = d'.size ∧ ∀ p ∈ d.items, d'.get? p.1 = some p.2

/-! ## Lookups and items -/

theorem lookup_eq_some {l : List (κ × υ)} (hl : (l.map Prod.fst).Nodup) {k : κ} {v : υ} :
    l.lookup k = some v ↔ (k, v) ∈ l := by
  induction l with
  | nil => simp
  | cons p l ih =>
      obtain ⟨j, w⟩ := p
      rw [List.map_cons, List.nodup_cons] at hl
      by_cases hj : k = j
      · subst hj
        simp only [List.lookup_cons, beq_self_eq_true, Option.some.injEq, List.mem_cons,
          Prod.mk.injEq, true_and]
        constructor
        · exact fun h => Or.inl h.symm
        · rintro (h | h)
          · exact h.symm
          · exact absurd (List.mem_map_of_mem (f := Prod.fst) h) hl.1
      · rw [List.lookup_cons, beq_eq_false_iff_ne.mpr hj]
        simpa [hj] using ih hl.2

theorem get?_eq_some {d : Dict κ υ} {k : κ} {v : υ} : d.get? k = some v ↔ (k, v) ∈ d.items :=
  lookup_eq_some d.nodup

theorem get?_eq_none {d : Dict κ υ} {k : κ} : d.get? k = none ↔ ∀ v, (k, v) ∉ d.items := by
  rw [Option.eq_none_iff_forall_ne_some]
  exact forall_congr' fun v => not_congr get?_eq_some

theorem mem_keys {d : Dict κ υ} {k : κ} : k ∈ d.keys ↔ ∃ v, d.get? k = some v := by
  simp [keys, get?_eq_some]

theorem contains_iff {d : Dict κ υ} {k : κ} : d.contains k = true ↔ k ∈ d.keys := by
  rw [mem_keys, contains, Option.isSome_iff_exists]

theorem contains_eq_false {d : Dict κ υ} {k : κ} : d.contains k = false ↔ d.get? k = none := by
  simp [contains]

omit [DecidableEq κ] in
@[simp] theorem keys_length (d : Dict κ υ) : d.keys.length = d.size := by
  simp [keys, size]

omit [DecidableEq κ] in
@[simp] theorem items_empty : (empty : Dict κ υ).items = [] := rfl

@[simp] theorem get?_empty (k : κ) : (empty : Dict κ υ).get? k = none := rfl

omit [DecidableEq κ] in
@[simp] theorem size_empty : (empty : Dict κ υ).size = 0 := rfl

omit [DecidableEq κ] in
theorem mem_filter {d : Dict κ υ} {f : κ × υ → Bool} {p : κ × υ} :
    p ∈ (d.filter f).items ↔ p ∈ d.items ∧ f p = true := List.mem_filter

theorem mem_erase {d : Dict κ υ} {j k : κ} {w : υ} :
    (j, w) ∈ (d.erase k).items ↔ j ≠ k ∧ (j, w) ∈ d.items := by
  simp [erase, mem_filter, and_comm]

theorem mem_putLast {d : Dict κ υ} {j k : κ} {v w : υ} :
    (j, w) ∈ (d.putLast k v).items ↔ (j = k ∧ w = v) ∨ (j ≠ k ∧ (j, w) ∈ d.items) := by
  simp only [putLast, List.mem_append, List.mem_singleton, Prod.mk.injEq, mem_erase]
  tauto

theorem mem_replace {d : Dict κ υ} {j k : κ} {v w : υ} (hk : d.contains k = true) :
    (j, w) ∈ (d.replace k v).items ↔ (j = k ∧ w = v) ∨ (j ≠ k ∧ (j, w) ∈ d.items) := by
  obtain ⟨u, hu⟩ := mem_keys.mp (contains_iff.mp hk)
  simp only [replace, List.mem_map]
  constructor
  · rintro ⟨p, hp, h⟩
    by_cases hpk : p.1 = k
    · rw [if_pos hpk, Prod.mk.injEq] at h
      exact Or.inl ⟨h.1.symm, h.2.symm⟩
    · rw [if_neg hpk] at h
      subst h
      exact Or.inr ⟨hpk, hp⟩
  · rintro (⟨rfl, rfl⟩ | ⟨hj, hm⟩)
    · exact ⟨(j, u), get?_eq_some.mp hu, by simp⟩
    · exact ⟨(j, w), hm, by simp [hj]⟩

theorem mem_set {d : Dict κ υ} {j k : κ} {v w : υ} :
    (j, w) ∈ (d.set k v).items ↔ (j = k ∧ w = v) ∨ (j ≠ k ∧ (j, w) ∈ d.items) := by
  unfold set
  split
  · exact mem_replace (by assumption)
  · exact mem_putLast

/-- A lookup is decided by the pairs in the dictionary. -/
theorem get?_congr {d d' : Dict κ υ} {k : κ}
    (h : ∀ v, (k, v) ∈ d.items ↔ (k, v) ∈ d'.items) : d.get? k = d'.get? k := by
  refine Option.ext fun v => ?_
  simp only [get?_eq_some, h v]

theorem get?_putLast (d : Dict κ υ) (k j : κ) (v : υ) :
    (d.putLast k v).get? j = if j = k then some v else d.get? j := by
  by_cases hj : j = k
  · rw [if_pos hj, get?_eq_some, mem_putLast]
    exact Or.inl ⟨hj, rfl⟩
  · rw [if_neg hj]
    exact get?_congr fun w => by simp [mem_putLast, hj]

@[simp] theorem get?_set (d : Dict κ υ) (k j : κ) (v : υ) :
    (d.set k v).get? j = if j = k then some v else d.get? j := by
  by_cases hj : j = k
  · rw [if_pos hj, get?_eq_some, mem_set]
    exact Or.inl ⟨hj, rfl⟩
  · rw [if_neg hj]
    exact get?_congr fun w => by simp [mem_set, hj]

@[simp] theorem get?_erase (d : Dict κ υ) (k j : κ) :
    (d.erase k).get? j = if j = k then none else d.get? j := by
  by_cases hj : j = k
  · rw [if_pos hj, get?_eq_none]
    simp [mem_erase, hj]
  · rw [if_neg hj]
    exact get?_congr fun w => by simp [mem_erase, hj]

@[simp] theorem get?_moveToEnd (d : Dict κ υ) (k j : κ) :
    (d.moveToEnd k).get? j = d.get? j := by
  unfold moveToEnd
  split
  · rw [get?_putLast]
    split
    · subst j
      exact Eq.symm (by assumption)
    · rfl
  · rfl

/-- Setting a key to the value it has changes nothing. -/
theorem set_of_get? {d : Dict κ υ} {k : κ} {v : υ} (h : d.get? k = some v) : d.set k v = d := by
  have hc : d.contains k = true := by simp [contains, h]
  have hm := get?_eq_some.mp h
  refine ext_items ?_
  rw [set, if_pos hc, replace]
  refine (List.map_congr_left fun p hp => ?_).trans (List.map_id _)
  split
  · next hk =>
      have hv := (lookup_eq_some d.nodup).mpr (show (k, p.2) ∈ d.items from hk ▸ hp)
      rw [(lookup_eq_some d.nodup).mpr hm] at hv
      rw [Option.some.inj hv, ← hk]
      rfl
  · rfl

/-! ## Sizes -/

theorem size_set_of_contains {d : Dict κ υ} {k : κ} {v : υ} (h : d.contains k = true) :
    (d.set k v).size = d.size := by
  rw [set, if_pos h]
  simp [size, replace]

theorem erase_of_get? {d : Dict κ υ} {k : κ} (h : d.get? k = none) : d.erase k = d := by
  refine ext_items (List.filter_eq_self.mpr fun p hp => ?_)
  have hp' : p.1 ≠ k := fun e => get?_eq_none.mp h p.2 (e ▸ hp)
  simpa using hp'

/-- A new key goes to the end. -/
theorem items_putLast_of_get? {d : Dict κ υ} {k : κ} {v : υ} (h : d.get? k = none) :
    (d.putLast k v).items = d.items ++ [(k, v)] :=
  congrArg (fun d' : Dict κ υ => d'.items ++ [(k, v)]) (erase_of_get? h)

theorem size_putLast_of_get? {d : Dict κ υ} {k : κ} {v : υ} (h : d.get? k = none) :
    (d.putLast k v).size = d.size + 1 := by
  simp [size, items_putLast_of_get? h]

/-- A key that is not there is added at the end. -/
theorem set_of_get?_none {d : Dict κ υ} {k : κ} {v : υ} (h : d.get? k = none) :
    d.set k v = d.putLast k v := by
  rw [set, if_neg (by simp [contains, h])]

theorem keys_set_of_contains {d : Dict κ υ} {k : κ} {v : υ} (h : d.contains k = true) :
    (d.set k v).keys = d.keys := by
  unfold Dict.set keys
  rw [if_pos h, replace, List.map_map]
  refine List.map_congr_left ?_
  intro p _
  by_cases hp : p.1 = k <;> simp [hp]

/-- Only the last of two assignments counts. -/
theorem set_set (d : Dict κ υ) (k : κ) (v w : υ) : (d.set k v).set k w = d.set k w := by
  have hc : (d.set k v).contains k = true := by simp [contains]
  refine ext_items ?_
  rw [show (d.set k v).set k w = (d.set k v).replace k w from if_pos hc]
  unfold Dict.set
  split
  · simp only [replace, List.map_map]
    refine List.map_congr_left ?_
    intro p _
    by_cases hp : p.1 = k <;> simp [hp]
  · simp only [replace, putLast, List.map_append, List.map_cons, List.map_nil, if_true]
    refine congrArg (· ++ [(k, w)]) ((List.map_congr_left ?_).trans (List.map_id _))
    intro p hp
    have hne : p.1 ≠ k := by simpa [erase, filter] using (List.mem_filter.mp hp).2
    simp [hne]

theorem size_set_le (d : Dict κ υ) (k : κ) (v : υ) : (d.set k v).size ≤ d.size + 1 := by
  cases h : d.get? k with
  | none => exact Nat.le_of_eq (by rw [set_of_get?_none h, size_putLast_of_get? h])
  | some w =>
      rw [size_set_of_contains (by simp [contains, h])]
      exact Nat.le_succ _

theorem size_erase_le (d : Dict κ υ) (k : κ) : (d.erase k).size ≤ d.size :=
  List.length_filter_le _ _

theorem size_erase_lt {d : Dict κ υ} {k : κ} {v : υ} (h : d.get? k = some v) :
    (d.erase k).size < d.size :=
  List.length_filter_lt_length_iff_exists.mpr ⟨(k, v), get?_eq_some.mp h, by simp⟩

theorem size_erase_of_get? {d : Dict κ υ} {k : κ} {v : υ} (h : d.get? k = some v) :
    (d.erase k).size + 1 = d.size := by
  have hn := d.nodup
  have hm := get?_eq_some.mp h
  change (d.items.filter fun p => decide (p.1 ≠ k)).length + 1 = d.items.length
  generalize d.items = l at hn hm
  induction l with
  | nil => cases hm
  | cons p l ih =>
      rw [List.map_cons, List.nodup_cons] at hn
      by_cases hp : p.1 = k
      · have hrest : l.filter (fun q => decide (q.1 ≠ k)) = l := by
          refine List.filter_eq_self.mpr ?_
          intro q hq
          have hne : q.1 ≠ k := by
            intro hk
            exact hn.1 (List.mem_map.mpr ⟨q, hq, hk.trans hp.symm⟩)
          simpa using hne
        rw [List.filter_cons_of_neg (by simpa using hp), hrest, List.length_cons]
      · have hl : (k, v) ∈ l := by
          rcases List.mem_cons.mp hm with heq | hl
          · exact absurd (congrArg Prod.fst heq).symm hp
          · exact hl
        rw [List.filter_cons_of_pos (by simpa using hp), List.length_cons, List.length_cons,
          ih hn.2 hl]

theorem erase_putLast (d : Dict κ υ) (k : κ) (v : υ) : (d.putLast k v).erase k = d.erase k := by
  refine ext_items ?_
  simp only [erase, filter, putLast, List.filter_append, List.filter_filter, Bool.and_self]
  simp

theorem putLast_putLast (d : Dict κ υ) (k : κ) (v w : υ) :
    (d.putLast k v).putLast k w = d.putLast k w := by
  refine ext_items ?_
  simp only [putLast]
  exact congrArg (fun d => Dict.items d ++ [(k, w)]) (erase_putLast d k v)

/-- The newest key is at the end already. -/
theorem moveToEnd_putLast (d : Dict κ υ) (k : κ) (v : υ) :
    (d.putLast k v).moveToEnd k = d.putLast k v := by
  have hg : (d.putLast k v).get? k = some v := by simp [get?_putLast]
  unfold moveToEnd
  rw [hg]
  exact putLast_putLast d k v v

theorem moveToEnd_moveToEnd (d : Dict κ υ) (k : κ) :
    (d.moveToEnd k).moveToEnd k = d.moveToEnd k := by
  cases hg : d.get? k with
  | none =>
      have hd : d.moveToEnd k = d := by
        unfold moveToEnd
        rw [hg]
      rw [hd, hd]
  | some v =>
      have hd : d.moveToEnd k = d.putLast k v := by
        unfold moveToEnd
        rw [hg]
      rw [hd, moveToEnd_putLast]

theorem size_moveToEnd_le (d : Dict κ υ) (k : κ) : (d.moveToEnd k).size ≤ d.size := by
  unfold moveToEnd
  split
  · next h =>
      have hlt := size_erase_lt h
      simp only [putLast, size, List.length_append, List.length_singleton] at hlt ⊢
      omega
  · exact Nat.le_refl _

omit [DecidableEq κ] in
theorem size_popFirst (d : Dict κ υ) : (d.popFirst).size = d.size - 1 := by
  simp [size, popFirst]

/-- Dictionaries with the same lookups are the same up to order. -/
theorem perm_of_get? {d d' : Dict κ υ} (h : ∀ k, d.get? k = d'.get? k) :
    d.items.Perm d'.items := by
  refine (List.perm_ext_iff_of_nodup d.nodup.of_map d'.nodup.of_map).mpr ?_
  rintro ⟨k, v⟩
  rw [← get?_eq_some, ← get?_eq_some, h k]

theorem size_of_get? {d d' : Dict κ υ} (h : ∀ k, d.get? k = d'.get? k) : d.size = d'.size :=
  (perm_of_get? h).length_eq

/-- The oldest key is gone, the others stay. -/
theorem get?_popFirst {d : Dict κ υ} {a : κ} {v : υ} {l : List (κ × υ)}
    (hd : d.items = (a, v) :: l) (k : κ) :
    d.popFirst.get? k = if k = a then none else d.get? k := by
  have hn := d.nodup
  rw [hd, List.map_cons, List.nodup_cons] at hn
  have hp : d.popFirst.items = l := by simp [popFirst, hd]
  split
  · next hk =>
      subst hk
      refine get?_eq_none.mpr fun w hw => hn.1 ?_
      rw [hp] at hw
      exact List.mem_map.mpr ⟨_, hw, rfl⟩
  · next hk =>
      refine get?_congr fun w => ?_
      rw [hp, hd]
      simp [hk]

/-- Moving the oldest key to the end. -/
theorem items_moveToEnd_first {d : Dict κ υ} {a : κ} {v : υ} {l : List (κ × υ)}
    (hd : d.items = (a, v) :: l) : (d.moveToEnd a).items = l ++ [(a, v)] := by
  have hn := d.nodup
  rw [hd, List.map_cons, List.nodup_cons] at hn
  have hg : d.get? a = some v := get?_eq_some.mpr (by rw [hd]; simp)
  have hf : l.filter (fun p => p.1 ≠ a) = l := by
    refine List.filter_eq_self.mpr fun p hp => ?_
    have hpa : p.1 ≠ a := fun h => hn.1 (List.mem_map.mpr ⟨p, hp, h⟩)
    simpa using hpa
  unfold moveToEnd
  simp only [hg]
  rw [putLast]
  simp only [erase, filter, hd, ne_eq, not_true_eq_false, decide_false, Bool.false_eq_true,
    not_false_eq_true, List.filter_cons_of_neg]
  simpa using hf

theorem get?_mapValues_eq_some {ω : Type} {d : Dict κ υ} {f : υ → ω} {k : κ} {w : ω} :
    (d.mapValues f).get? k = some w ↔ ∃ v, d.get? k = some v ∧ f v = w := by
  simp only [get?_eq_some, mapValues, List.mem_map, Prod.mk.injEq]
  constructor
  · rintro ⟨⟨k', v⟩, hp, rfl, rfl⟩
    exact ⟨v, hp, rfl⟩
  · rintro ⟨v, hv, rfl⟩
    exact ⟨(k, v), hv, rfl, rfl⟩

theorem get?_mapValues {ω : Type} (d : Dict κ υ) (f : υ → ω) (k : κ) :
    (d.mapValues f).get? k = (d.get? k).map f := by
  refine Option.ext fun w => ?_
  rw [get?_mapValues_eq_some, Option.map_eq_some_iff]

/-! ## Dictionaries with related values -/

/-- The same keys in the same order, with related values. -/
def Rel {ω : Type} (R : υ → ω → Prop) (d : Dict κ υ) (d' : Dict κ ω) : Prop :=
  List.Forall₂ (fun p q => p.1 = q.1 ∧ R p.2 q.2) d.items d'.items

section Rel

variable {ω : Type} {R : υ → ω → Prop} {d : Dict κ υ} {d' : Dict κ ω}

omit [DecidableEq κ] in
theorem rel_empty : Rel R (empty : Dict κ υ) empty := List.Forall₂.nil

theorem lookup_rel {l : List (κ × υ)} {l' : List (κ × ω)}
    (h : List.Forall₂ (fun p q => p.1 = q.1 ∧ R p.2 q.2) l l') (k : κ) :
    Option.Rel R (l.lookup k) (l'.lookup k) := by
  induction h with
  | nil => exact Option.Rel.none
  | @cons p q l l' hpq _ ih =>
      obtain ⟨a, v⟩ := p
      obtain ⟨b, w⟩ := q
      obtain ⟨rfl, hv⟩ := hpq
      simp only [List.lookup_cons]
      split
      · exact Option.Rel.some hv
      · exact ih

omit [DecidableEq κ] in
/-- Dictionaries with the same keys whose values are related key by key. -/
theorem rel_of_keys (hk : d.keys = d'.keys)
    (h : ∀ k v w, (k, v) ∈ d.items → (k, w) ∈ d'.items → R v w) : Rel R d d' := by
  unfold keys at hk
  unfold Rel
  generalize d.items = l at hk h
  generalize d'.items = l' at hk h
  induction l generalizing l' with
  | nil =>
      cases l' with
      | nil => exact List.Forall₂.nil
      | cons q l' => cases hk
  | cons p l ih =>
      cases l' with
      | nil => cases hk
      | cons q l' =>
          obtain ⟨hpq, hl⟩ := List.cons.inj hk
          obtain ⟨k, v⟩ := p
          obtain ⟨k', w⟩ := q
          obtain rfl : k = k' := hpq
          refine List.Forall₂.cons ⟨rfl, h k v w (by simp) (by simp)⟩ (ih l' hl ?_)
          intro j a b ha hb
          exact h j a b (List.mem_cons_of_mem _ ha) (List.mem_cons_of_mem _ hb)

theorem Rel.get? (h : Rel R d d') (k : κ) : Option.Rel R (d.get? k) (d'.get? k) := lookup_rel h k

theorem Rel.get?_cases (h : Rel R d d') (k : κ) :
    (d.get? k = none ∧ d'.get? k = none) ∨
      ∃ v w, d.get? k = some v ∧ d'.get? k = some w ∧ R v w := by
  have hg := h.get? k
  generalize d.get? k = o at hg
  generalize d'.get? k = o' at hg
  cases hg with
  | none => exact Or.inl ⟨rfl, rfl⟩
  | some hvw => exact Or.inr ⟨_, _, rfl, rfl, hvw⟩

theorem Rel.erase (h : Rel R d d') (k : κ) : Rel R (d.erase k) (d'.erase k) := by
  unfold Rel Dict.erase Dict.filter at *
  refine List.rel_filter ?_ h
  rintro p q ⟨hpq, -⟩
  simp [hpq]

theorem Rel.set (h : Rel R d d') (k : κ) {v : υ} {w : ω} (hvw : R v w) :
    Rel R (d.set k v) (d'.set k w) := by
  have hg := h.get? k
  cases hd : d.get? k with
  | none =>
      rw [hd] at hg
      generalize hd' : d'.get? k = o at hg
      cases hg
      rw [set_of_get?_none hd, set_of_get?_none hd']
      exact List.rel_append (h.erase k) (List.Forall₂.cons ⟨rfl, hvw⟩ List.Forall₂.nil)
  | some u =>
      rw [hd] at hg
      generalize hd' : d'.get? k = o at hg
      cases hg
      have hc : d.contains k = true := by simp [contains, hd]
      have hc' : d'.contains k = true := by simp [contains, hd']
      rw [Dict.set, Dict.set, if_pos hc, if_pos hc']
      refine List.rel_map ?_ h
      rintro p q ⟨hpq, hr⟩
      by_cases hp : p.1 = k
      · simp [hp, ← hpq, hvw]
      · simp [hp, ← hpq, hr]

omit [DecidableEq κ] in
theorem Rel.mapValues {υ' ω' : Type} {R' : υ' → ω' → Prop} (h : Rel R d d') {f : υ → υ'}
    {g : ω → ω'} (hfg : ∀ v w, R v w → R' (f v) (g w)) :
    Rel R' (d.mapValues f) (d'.mapValues g) := by
  refine List.rel_map ?_ h
  rintro p q ⟨hpq, hr⟩
  exact ⟨hpq, hfg _ _ hr⟩

omit [DecidableEq κ] in
theorem Rel.values (h : Rel R d d') : List.Forall₂ R d.values d'.values := by
  refine List.rel_map ?_ h
  rintro p q ⟨-, hr⟩
  exact hr

end Rel

/-! ## Dictionaries made from a list -/

theorem ofList_concat (l : List (κ × υ)) (p : κ × υ) :
    ofList (l ++ [p]) = (ofList l).set p.1 p.2 := by
  simp [ofList, List.foldl_append]

/-- Without repeated keys the items are the list itself. -/
theorem items_ofList {l : List (κ × υ)} (hl : (l.map Prod.fst).Nodup) : (ofList l).items = l := by
  induction l using List.reverseRecOn with
  | nil => rfl
  | append_singleton l p ih =>
      rw [List.map_append, List.nodup_append] at hl
      have hi := ih hl.1
      have hk : ∀ q ∈ l, q.1 ≠ p.1 := fun q hq =>
        hl.2.2 _ (List.mem_map_of_mem hq) p.1 (by simp)
      have hc : (ofList l).contains p.1 = false := by
        rw [contains_eq_false, get?_eq_none, hi]
        exact fun v hv => hk _ hv rfl
      rw [ofList_concat, set, hc]
      simp only [Bool.false_eq_true, if_false, putLast, erase, filter, hi]
      rw [List.filter_eq_self.mpr fun q hq => by simpa using hk q hq]

/-- What a dictionary made from a list holds is in the list. -/
theorem mem_of_get?_ofList {l : List (κ × υ)} {k : κ} {v : υ} (h : (ofList l).get? k = some v) :
    (k, v) ∈ l := by
  induction l using List.reverseRecOn with
  | nil => simp [ofList] at h
  | append_singleton l p ih =>
      rw [ofList_concat, get?_set] at h
      split at h
      · next hk =>
          obtain rfl := Option.some.inj h
          simp [hk]
      · exact List.mem_append_left _ (ih h)

theorem get?_ofList_of_nodup {l : List (κ × υ)} (hl : (l.map Prod.fst).Nodup) {k : κ} {v : υ} :
    (ofList l).get? k = some v ↔ (k, v) ∈ l := by
  rw [get?_eq_some, items_ofList hl]

theorem keys_ofList {l : List (κ × υ)} (hl : (l.map Prod.fst).Nodup) :
    (ofList l).keys = l.map Prod.fst := by
  rw [keys, items_ofList hl]

/-- A dictionary made from keys that all get one value. -/
theorem get?_ofList_const {l : List κ} {v : υ} {k : κ} {w : υ}
    (h : (ofList (l.map (·, v))).get? k = some w) : w = v := by
  induction l using List.reverseRecOn with
  | nil => simp [ofList] at h
  | append_singleton l p ih =>
      rw [List.map_append, List.map_singleton, ofList_concat, get?_set] at h
      split at h
      · exact (Option.some.inj h).symm
      · exact ih h

@[simp] theorem sameItems_self [DecidableEq υ] (d : Dict κ υ) : d.sameItems d = true := by
  simp only [sameItems, decide_eq_true_eq, true_and]
  exact fun p hp => get?_eq_some.mpr hp

/-- Dictionaries with the same items answer every lookup alike. -/
theorem sameItems_iff [DecidableEq υ] {d d' : Dict κ υ} :
    d.sameItems d' = true ↔ ∀ k, d.get? k = d'.get? k := by
  simp only [sameItems, decide_eq_true_eq]
  constructor
  · rintro ⟨hsize, hmem⟩ k
    have hsub : d.items ⊆ d'.items := fun p hp => get?_eq_some.mp (hmem p hp)
    have hperm : d.items.Perm d'.items :=
      (List.subperm_of_subset (List.Nodup.of_map _ d.nodup) hsub).perm_of_length_le
        (Nat.le_of_eq hsize.symm)
    refine Option.ext fun v => ?_
    rw [get?_eq_some, get?_eq_some]
    exact hperm.mem_iff
  · intro h
    have hperm : d.items.Perm d'.items := by
      refine (List.perm_ext_iff_of_nodup (List.Nodup.of_map _ d.nodup)
        (List.Nodup.of_map _ d'.nodup)).mpr fun p => ?_
      rw [← get?_eq_some, ← get?_eq_some, h]
    exact ⟨hperm.length_eq, fun p hp => h p.1 ▸ get?_eq_some.mpr hp⟩

end Dict
