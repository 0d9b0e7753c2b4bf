import KvCache.RaftTypes

/-!
# Raft persistence

`raft/storage.py`: the state a node reloads on startup and the in-memory
storage. The stored entries are a dictionary from index to entry; `load`
reads them back in index order.
-/

namespace KvCache

/-- Everything a node reloads on startup. -/
structure PersistentState where
  currentTerm : Nat := 0
  votedFor : Option NodeId := none
  /-- the entries after the snapshot -/
  log : List LogEntry := []
  snapshotIndex : Nat := 0
  snapshotTerm : Nat := 0
  lastApplied : Nat := 0
  /-- none: never saved -/
  snapshotConfig : Option (List Member) := none
deriving DecidableEq

structure MemoryRaftStorage where
  term : Nat := 0
  votedFor : Option NodeId := none
  entries : Dict Nat LogEntry := Dict.empty
  snapshotIndex : Nat := 0
  snapshotTerm : Nat := 0
  lastApplied : Nat := 0
  config : Option (List Member) := none

namespace MemoryRaftStorage

def load (s : MemoryRaftStorage) : PersistentState where
  currentTerm := s.term
  votedFor := s.votedFor
  log := ((s.entries.items.insertionSort fun p q => p.1 ≤ q.1).filter
    fun p => s.snapshotIndex < p.1).map Prod.snd
  snapshotIndex := s.snapshotIndex
  snapshotTerm := s.snapshotTerm
  lastApplied := s.lastApplied
  snapshotConfig := s.config

def saveTermAndVote (s : MemoryRaftStorage) (term : Nat) (votedFor : Option NodeId) :
    MemoryRaftStorage :=
  { s with term := term, votedFor := votedFor }

def dropFrom (s : MemoryRaftStorage) (index : Nat) : MemoryRaftStorage :=
  { s with entries := s.entries.filter fun p => p.1 < index }

/-- Persist new entries. Replaces any stored entry at the same index or
later. -/
def append (s : MemoryRaftStorage) : List LogEntry → MemoryRaftStorage
  | [] => s
  | e :: es =>
      let s := s.dropFrom e.index
      { s with entries := (e :: es).foldl (fun d x => d.set x.index x) s.entries }

def truncateFrom (s : MemoryRaftStorage) (index : Nat) : MemoryRaftStorage := s.dropFrom index

/-- Record a snapshot boundary and drop the entries it covers. Without a
`config` the stored one stays. -/
def saveSnapshot (s : MemoryRaftStorage) (index term lastApplied : Nat)
    (config : Option (List Member)) : MemoryRaftStorage :=
  { s with
    snapshotIndex := index
    snapshotTerm := term
    lastApplied := lastApplied
    config := config.or s.config
    entries := s.entries.filter fun p => index < p.1 }

/-- Appending only changes the entries. -/
theorem append_eq (s : MemoryRaftStorage) (es : List LogEntry) :
    s.append es = { s with entries := (s.append es).entries } := by
  cases es <;> rfl

/-! ## What `load` reads back -/

/-- Beyond the boundary `snap` the stored entries are those of `log`, at
consecutive indexes. -/
def Holds (d : Dict Nat LogEntry) (snap : Nat) (log : List LogEntry) : Prop :=
  ∀ k x, snap < k → ((k, x) ∈ d.items ↔ log[k - snap - 1]? = some x)

/-- The entries of a log with their indexes. -/
def indexed (snap : Nat) (log : List LogEntry) : List (Nat × LogEntry) :=
  log.zipIdx.map fun p => (snap + p.2 + 1, p.1)

theorem indexed_values (snap : Nat) (log : List LogEntry) :
    (indexed snap log).map Prod.snd = log := by
  rw [indexed, List.map_map]
  exact List.zipIdx_map_fst 0 log

theorem mem_indexed {snap k : Nat} {log : List LogEntry} {x : LogEntry} :
    (k, x) ∈ indexed snap log ↔ snap < k ∧ log[k - snap - 1]? = some x := by
  simp only [indexed, List.mem_map, Prod.exists, List.mem_zipIdx_iff_getElem?, Prod.mk.injEq]
  constructor
  · rintro ⟨y, i, hy, rfl, rfl⟩
    exact ⟨by omega, by rw [← hy]; congr 1; omega⟩
  · rintro ⟨hk, hx⟩
    exact ⟨x, k - snap - 1, hx, by omega, rfl⟩

theorem indexed_sorted (snap : Nat) (log : List LogEntry) :
    (indexed snap log).Pairwise fun p q => p.1 < q.1 := by
  rw [indexed, List.pairwise_map]
  have h : (log.zipIdx.map Prod.snd).Pairwise (· < ·) := by
    rw [List.zipIdx_map_snd]
    exact List.pairwise_lt_range'
  exact (List.pairwise_map.mp h).imp fun hlt => by omega

theorem nodup_of_sorted {l : List (Nat × LogEntry)} (h : l.Pairwise fun p q => p.1 < q.1) :
    l.Nodup :=
  h.imp fun hlt heq => by
    rw [heq] at hlt
    exact Nat.lt_irrefl _ hlt

/-- The items of a dictionary, sorted by key, have strictly ascending keys. -/
theorem sorted_items (d : Dict Nat LogEntry) :
    (d.items.insertionSort fun p q => p.1 ≤ q.1).Pairwise fun p q => p.1 < q.1 := by
  have : IsTrans (Nat × LogEntry) fun p q => p.1 ≤ q.1 := ⟨fun _ _ _ => Nat.le_trans⟩
  have : Std.Total (α := Nat × LogEntry) fun p q => p.1 ≤ q.1 := ⟨fun p q => Nat.le_total p.1 q.1⟩
  have hle := List.pairwise_insertionSort (fun p q : Nat × LogEntry => p.1 ≤ q.1) d.items
  have hne : (d.items.insertionSort fun p q => p.1 ≤ q.1).Pairwise fun p q => p.1 ≠ q.1 := by
    have := ((List.perm_insertionSort (fun p q : Nat × LogEntry => p.1 ≤ q.1) d.items).map
      Prod.fst).nodup_iff.mpr d.nodup
    exact List.pairwise_map.mp this
  exact (hle.and hne).imp fun h => Nat.lt_of_le_of_ne h.1 h.2

/-- `load` reads back a log that the storage holds. -/
theorem load_log {s : MemoryRaftStorage} {log : List LogEntry}
    (h : Holds s.entries s.snapshotIndex log) : s.load.log = log := by
  have hs := (sorted_items s.entries).filter fun p => decide (s.snapshotIndex < p.1)
  have ht := indexed_sorted s.snapshotIndex log
  have hperm := (List.perm_ext_iff_of_nodup (nodup_of_sorted hs) (nodup_of_sorted ht)).mpr
    fun p => by
      obtain ⟨k, x⟩ := p
      rw [List.mem_filter, List.mem_insertionSort, mem_indexed]
      simp only [decide_eq_true_eq]
      constructor
      · exact fun hm => ⟨hm.2, (h k x hm.2).mp hm.1⟩
      · exact fun hm => ⟨(h k x hm.1).mpr hm.2, hm.1⟩
  have heq := hperm.eq_of_pairwise (fun a b _ _ h1 h2 => absurd h1 (Nat.lt_asymm h2)) hs ht
  rw [load, heq, indexed_values]

theorem Holds.empty (snap : Nat) : Holds Dict.empty snap [] := by
  intro k x _
  simp

theorem Holds.take {d : Dict Nat LogEntry} {snap : Nat} {log : List LogEntry}
    (h : Holds d snap log) (k : Nat) :
    Holds (d.filter fun p => p.1 < snap + k + 1) snap (log.take k) := by
  intro j x hj
  rw [Dict.mem_filter, h j x hj, List.getElem?_take]
  simp only [decide_eq_true_eq]
  split
  · exact and_iff_left (by omega)
  · simp only [reduceCtorEq, iff_false, not_and]
    omega

theorem Holds.drop {d : Dict Nat LogEntry} {snap : Nat} {log : List LogEntry}
    (h : Holds d snap log) (k : Nat) :
    Holds (d.filter fun p => snap + k < p.1) (snap + k) (log.drop k) := by
  intro j x hj
  rw [Dict.mem_filter, h j x (by omega), List.getElem?_drop,
    show k + (j - (snap + k) - 1) = j - snap - 1 by omega]
  simp [hj]

theorem Holds.set {d : Dict Nat LogEntry} {snap : Nat} {log : List LogEntry}
    (h : Holds d snap log) (y : LogEntry) :
    Holds (d.set (snap + log.length + 1) y) snap (log ++ [y]) := by
  intro k x hk
  rw [Dict.mem_set, h k x hk]
  rcases Nat.lt_trichotomy (k - snap - 1) log.length with hlt | heq | hgt
  · rw [List.getElem?_append_left hlt]
    constructor
    · rintro (⟨rfl, -⟩ | ⟨-, hx⟩)
      · omega
      · exact hx
    · exact fun hx => Or.inr ⟨by omega, hx⟩
  · rw [heq, List.getElem?_concat_length, List.getElem?_eq_none (Nat.le_refl _)]
    have hk' : k = snap + log.length + 1 := by omega
    simp [hk', eq_comm]
  · have hlen : (log ++ [y]).length ≤ k - snap - 1 := by
      rw [List.length_append, List.length_singleton]
      exact hgt
    rw [List.getElem?_eq_none hlen, List.getElem?_eq_none (Nat.le_of_lt hgt)]
    simp only [reduceCtorEq, and_false, or_false, iff_false, not_and]
    omega

theorem Holds.setAll {snap : Nat} (es : List LogEntry) :
    ∀ {d : Dict Nat LogEntry} {log : List LogEntry}, Holds d snap log →
      (∀ j x, es[j]? = some x → x.index = snap + log.length + j + 1) →
      Holds (es.foldl (fun d x => d.set x.index x) d) snap (log ++ es) := by
  induction es with
  | nil => exact fun h _ => by simpa using h
  | cons y es ih =>
      intro d log h hes
      have hy : y.index = snap + log.length + 1 := hes 0 y rfl
      rw [List.foldl_cons, hy, List.append_cons]
      refine ih (h.set y) fun j x hx => ?_
      rw [hes (j + 1) x (by simpa using hx), List.length_append, List.length_singleton]
      omega

/-- Appending consecutive entries replaces what is stored from the first of
them on. -/
theorem holds_append {s : MemoryRaftStorage} {log es : List LogEntry} {snap k : Nat}
    (h : Holds s.entries snap log) (hk : k ≤ log.length) (hne : es ≠ [])
    (hes : ∀ j x, es[j]? = some x → x.index = snap + k + j + 1) :
    Holds (s.append es).entries snap (log.take k ++ es) := by
  cases es with
  | nil => exact absurd rfl hne
  | cons y es =>
      have hy : y.index = snap + k + 1 := hes 0 y rfl
      simp only [append, dropFrom, hy]
      refine Holds.setAll (y :: es) (h.take k) ?_
      rw [List.length_take, Nat.min_eq_left hk]
      exact hes

end MemoryRaftStorage

end KvCache
