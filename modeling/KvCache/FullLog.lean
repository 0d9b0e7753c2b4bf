import KvCache.QuorumLog
import KvCache.RaftStorage

/-!
# The full log behind a compacted one

A node keeps a snapshot boundary and the entries after it. `Shows` says that
these are what is left of a full log `l`, which starts at index 1 and of
which the entries up to the boundary are compacted. Every log query of
`RaftNode` is then a query of `l`, and the changes a node makes to its log
are taking a prefix, appending and moving the boundary.
-/

namespace KvCache

open QuorumLog

/-- The term of the last entry of a full log. -/
abbrev lastTerm (l : List LogEntry) : Nat := QuorumLog.lastTerm LogEntry.term l

theorem lastTerm_take {l : List LogEntry} {k : Nat} {x : LogEntry} (hx : l[k]? = some x) :
    lastTerm (l.take (k + 1)) = x.term := by
  rw [List.take_add_one, hx, Option.toList_some, lastTerm, lastTerm_concat]

/-- A snapshot boundary and the log after it, as what is left of `l`. -/
structure Shows (snapshotIndex snapshotTerm : Nat) (log l : List LogEntry) : Prop where
  le : snapshotIndex ≤ l.length
  log_eq : log = l.drop snapshotIndex
  term_eq : snapshotTerm = lastTerm (l.take snapshotIndex)

namespace Shows

variable {s t : Nat} {log l : List LogEntry}

theorem append (v : Shows s t log l) (es : List LogEntry) : Shows s t (log ++ es) (l ++ es) where
  le := by
    rw [List.length_append]
    exact Nat.le_add_right_of_le v.le
  log_eq := by rw [v.log_eq, List.drop_append_of_le_length v.le]
  term_eq := by rw [v.term_eq, List.take_append_of_le_length v.le]

theorem take (v : Shows s t log l) {k : Nat} (hk : s ≤ k) :
    Shows s t (log.take (k - s)) (l.take k) where
  le := by
    rw [List.length_take]
    exact Nat.le_min.mpr ⟨hk, v.le⟩
  log_eq := by rw [v.log_eq, List.take_drop, Nat.add_sub_cancel' hk]
  term_eq := by rw [v.term_eq, List.take_take, Nat.min_eq_left hk]

end Shows

namespace RaftNode

abbrev Shows (n : RaftNode) (l : List LogEntry) : Prop :=
  KvCache.Shows n.snapshotIndex n.snapshotTerm n.log l

variable {n : RaftNode} {l : List LogEntry}

/-! ## Queries -/

theorem Shows.lastLogIndex (v : n.Shows l) : n.lastLogIndex = l.length := by
  rw [RaftNode.lastLogIndex, v.log_eq, List.length_drop, Nat.add_sub_cancel' v.le]

theorem Shows.getElem? (v : n.Shows l) (k : Nat) : n.log[k]? = l[n.snapshotIndex + k]? := by
  rw [v.log_eq, List.getElem?_drop]

theorem Shows.lastLogTerm (v : n.Shows l) : n.lastLogTerm = lastTerm l := by
  rw [RaftNode.lastLogTerm]
  by_cases h : n.snapshotIndex = l.length
  · have hnil : n.log = [] := by rw [v.log_eq, h, List.drop_length]
    rw [hnil, List.getLast?_nil, v.term_eq, h, List.take_length]
  · have hlt : n.snapshotIndex < l.length := Nat.lt_of_le_of_ne v.le h
    have hne : l ≠ [] := by
      rintro rfl
      exact Nat.not_lt_zero _ hlt
    rw [v.log_eq, List.getLast?_drop, if_neg (by omega), List.getLast?_eq_some_getLast hne]
    simp [lastTerm, QuorumLog.lastTerm, List.getLast?_eq_some_getLast hne]

theorem Shows.termAt (v : n.Shows l) (k : Nat) :
    n.termAt k =
      if n.snapshotIndex ≤ k ∧ k ≤ l.length then some (lastTerm (l.take k)) else none := by
  rw [RaftNode.termAt, v.lastLogIndex]
  by_cases hk : k = n.snapshotIndex
  · rw [if_pos hk, if_pos ⟨Nat.le_of_eq hk.symm, hk ▸ v.le⟩, hk, v.term_eq]
  · rw [if_neg hk]
    by_cases hin : n.snapshotIndex ≤ k ∧ k ≤ l.length
    · rw [if_neg (by omega), if_pos hin, v.getElem?,
        show n.snapshotIndex + (k - n.snapshotIndex - 1) = k - 1 by omega]
      have hlt : k - 1 < l.length := by omega
      have hx : l[k - 1]? = some l[k - 1] := List.getElem?_eq_getElem hlt
      rw [hx, Option.map_some, ← lastTerm_take hx, Nat.sub_add_cancel (by omega)]
    · rw [if_pos (by omega), if_neg hin]

theorem Shows.entryAt (v : n.Shows l) (k : Nat) :
    n.entryAt k = if n.snapshotIndex < k then l[k - 1]? else none := by
  rw [RaftNode.entryAt, v.lastLogIndex]
  by_cases hk : n.snapshotIndex < k
  · rw [if_pos hk, v.getElem?, show n.snapshotIndex + (k - n.snapshotIndex - 1) = k - 1 by omega]
    by_cases hl : l.length < k
    · rw [if_pos (Or.inr hl), List.getElem?_eq_none (by omega)]
    · rw [if_neg (by omega)]
  · rw [if_pos (by omega), if_neg hk]

/-- An entry within a prefix that another full log shares is there as well,
unless it is compacted. -/
theorem Shows.entryAt_of_shared {n' : RaftNode} {l' : List LogEntry} (v : n.Shows l)
    (v' : n'.Shows l') {k m : Nat} {y : LogEntry} (hp : l.take m <+: l') (hk : k ≤ m)
    (hy : n.entryAt k = some y) : n'.entryAt k = some y ∨ k ≤ n'.snapshotIndex := by
  rw [v.entryAt] at hy
  rw [v'.entryAt]
  split at hy
  · split
    · refine Or.inl ?_
      obtain ⟨s, hs⟩ := hp
      have hlt : k - 1 < (l.take m).length := by
        rw [List.length_take]
        exact Nat.lt_min.mpr ⟨by omega, (List.getElem?_eq_some_iff.mp hy).1⟩
      rw [← hs, List.getElem?_append_left hlt, List.getElem?_take, if_pos (by omega), hy]
    · exact Or.inr (by omega)
  · cases hy

theorem entriesFrom_eq {k : Nat} (hk : n.snapshotIndex ≤ k) (limit : Nat) :
    n.entriesFrom (k + 1) limit = (n.log.drop (k - n.snapshotIndex)).take limit := by
  have h1 : (((k + 1 : Nat) : Int) - n.snapshotIndex - 1) = ((k - n.snapshotIndex : Nat) : Int) := by
    omega
  have h2 : (((k + 1 : Nat) : Int) - n.snapshotIndex - 1) + limit
      = ((k - n.snapshotIndex + limit : Nat) : Int) := by
    omega
  simp only [RaftNode.entriesFrom]
  rw [h2, h1, take_sliceBound]
  rcases Nat.le_total (k - n.snapshotIndex) n.log.length with h | h
  · have hs : sliceBound n.log.length ((k - n.snapshotIndex : Nat) : Int) = k - n.snapshotIndex := by
      simp [sliceBound, h]
    rw [hs, List.take_drop]
  · have hs : sliceBound n.log.length ((k - n.snapshotIndex : Nat) : Int) = n.log.length := by
      simp [sliceBound, h]
    rw [hs, List.drop_of_length_le (by simp), List.drop_of_length_le h, List.take_nil]

theorem Shows.entriesFrom (v : n.Shows l) {k : Nat} (hk : n.snapshotIndex ≤ k) (limit : Nat) :
    n.entriesFrom (k + 1) limit = (l.take (k + limit)).drop k := by
  rw [entriesFrom_eq hk, v.log_eq, List.drop_drop, Nat.add_sub_cancel' hk, List.take_drop]

/-! ## Memberships without CONFIG entries -/

theorem latestConfig_eq (hlog : ∀ y ∈ n.log, parseConfig y.command = none) :
    n.latestConfig = (n.snapshotIndex, n.snapshotConfig) := by
  have : n.log.reverse.findSome? (fun y => (parseConfig y.command).map (y.index, ·)) = none := by
    rw [List.findSome?_eq_none_iff]
    intro y hy
    rw [hlog y (List.mem_reverse.mp hy), Option.map_none]
  rw [RaftNode.latestConfig, this]

theorem configAt_eq (hlog : ∀ y ∈ n.log, parseConfig y.command = none) (k : Nat) :
    n.configAt k = n.snapshotConfig := by
  have : n.log.reverse.findSome?
      (fun y => if y.index ≤ k then parseConfig y.command else none) = none := by
    rw [List.findSome?_eq_none_iff]
    intro y hy
    rw [hlog y (List.mem_reverse.mp hy), ite_self]
  rw [RaftNode.configAt, this, Option.none_or]

/-! ## Changes -/

theorem truncateFrom_log (n : RaftNode) {k : Nat} (hk : n.snapshotIndex ≤ k) :
    (n.truncateFrom (k + 1)).log = n.log.take (k - n.snapshotIndex) := by
  have h1 : (((k + 1 : Nat) : Int) - n.snapshotIndex - 1) = ((k - n.snapshotIndex : Nat) : Int) := by
    omega
  simp only [RaftNode.truncateFrom]
  rw [h1, take_sliceBound]

/-- Compacting at an index where the terms agree drops the entries up to it. -/
theorem compactThrough_log (n : RaftNode) {k t : Nat} (config : Option (List Member))
    (hk : n.snapshotIndex ≤ k) (ht : n.termAt k = some t) :
    (n.compactThrough k t config).log = n.log.drop (k - n.snapshotIndex) := by
  have hs : ((k : Int) - n.snapshotIndex) = ((k - n.snapshotIndex : Nat) : Int) := by omega
  simp only [compactThrough, ht, if_true]
  rw [hs, drop_sliceBound]

/-- Compacting at an index where they disagree drops them all. -/
theorem compactThrough_nil (n : RaftNode) {k t : Nat} (config : Option (List Member))
    (ht : n.termAt k ≠ some t) : (n.compactThrough k t config).log = [] := by
  simp [compactThrough, ht]

/-- In the first case the full log stays. -/
theorem Shows.compact (v : n.Shows l) {k t : Nat} (config : Option (List Member))
    (ht : n.termAt k = some t) : (n.compactThrough k t config).Shows l := by
  have h := v.termAt k
  rw [ht] at h
  split at h
  · rename_i hk
    refine ⟨hk.2, ?_, ?_⟩
    · rw [n.compactThrough_log config hk.1 ht, v.log_eq, List.drop_drop, Nat.add_sub_cancel' hk.1]
      rfl
    · simpa [compactThrough] using h
  · simp at h

/-- In the second the prefix the snapshot stands for is left. -/
theorem Shows.replace (n : RaftNode) {s : List LogEntry} (config : Option (List Member))
    (ht : n.termAt s.length ≠ some (lastTerm s)) :
    (n.compactThrough s.length (lastTerm s) config).Shows s where
  le := Nat.le_refl _
  log_eq := by
    rw [n.compactThrough_nil config ht]
    simp [compactThrough]
  term_eq := by simp [compactThrough]

end RaftNode

/-! ## Stored logs -/

/-- Every entry stands at the position its index names. -/
def Aligned (l : List LogEntry) : Prop := ∀ k x, l[k]? = some x → x.index = k + 1

theorem Aligned.nil : Aligned [] := by
  intro k x hx
  simp at hx

theorem Aligned.shorten {l l' : List LogEntry} (hl : Aligned l) (hp : l' <+: l) : Aligned l' :=
  fun k x hx => by
    obtain ⟨t, rfl⟩ := hp
    refine hl k x ?_
    rw [List.getElem?_append_left (List.getElem?_eq_some_iff.mp hx).1]
    exact hx

end KvCache
