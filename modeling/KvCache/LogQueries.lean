import KvCache.FullLog

/-!
# The log queries across a compaction

`RaftNode` answers its log queries by offset arithmetic against the snapshot
boundary, each with its own special case there. Moving the boundary up within
the log (`folded`) changes none of the answers above it, provided the entries
stand where their indexes say (`Indexed`) and the new boundary is given the
term and the membership that held at its place (`compactThrough_queries`).
-/

namespace KvCache

namespace RaftNode

/-- Entries stand at the positions their indexes name. -/
def Indexed (n : RaftNode) : Prop :=
  ∀ k x, n.log[k]? = some x → x.index = n.snapshotIndex + k + 1

/-- The node with the entries up to `s` in a snapshot. -/
def folded (n : RaftNode) (s term : Nat) (config : Option (List Member)) : RaftNode :=
  { n with
    log := n.log.drop (s - n.snapshotIndex)
    snapshotIndex := s
    snapshotTerm := term
    snapshotConfig := config }

variable {n : RaftNode} {s t : Nat} {config : Option (List Member)}

/-! ## Positions and terms -/

theorem length_le_of_le_lastLogIndex (hs : s ≤ n.lastLogIndex) :
    s - n.snapshotIndex ≤ n.log.length := by
  unfold lastLogIndex at hs
  omega

theorem lastLogIndex_folded (hge : n.snapshotIndex ≤ s) (hs : s ≤ n.lastLogIndex) :
    (n.folded s t config).lastLogIndex = n.lastLogIndex := by
  have hle := length_le_of_le_lastLogIndex hs
  simp only [lastLogIndex, folded, List.length_drop]
  omega

theorem entryAt_folded (hge : n.snapshotIndex ≤ s) (hs : s ≤ n.lastLogIndex) {k : Nat}
    (hk : s < k) : (n.folded s t config).entryAt k = n.entryAt k := by
  unfold entryAt
  rw [lastLogIndex_folded hge hs]
  simp only [folded, List.getElem?_drop]
  by_cases hlast : n.lastLogIndex < k
  · rw [if_pos (Or.inr hlast), if_pos (Or.inr hlast)]
  · rw [if_neg (by omega), if_neg (by omega)]
    congr 1
    omega

theorem termAt_folded (hge : n.snapshotIndex ≤ s) (hs : s ≤ n.lastLogIndex)
    (ht : n.termAt s = some t) {k : Nat} (hk : s ≤ k) :
    (n.folded s t config).termAt k = n.termAt k := by
  rcases Nat.lt_or_eq_of_le hk with hlt | rfl
  · unfold termAt
    rw [lastLogIndex_folded hge hs]
    simp only [folded, List.getElem?_drop]
    rw [if_neg (show ¬ k = s by omega), if_neg (show ¬ k = n.snapshotIndex by omega)]
    by_cases hlast : n.lastLogIndex < k
    · rw [if_pos (Or.inr hlast), if_pos (Or.inr hlast)]
    · rw [if_neg (by omega), if_neg (by omega)]
      congr 2
      omega
  · rw [ht]
    simp [termAt, folded]

/-- The term of the last entry is the term at the last index. -/
theorem termAt_lastLogIndex (n : RaftNode) : n.termAt n.lastLogIndex = some n.lastLogTerm := by
  unfold termAt lastLogTerm lastLogIndex
  rcases QuorumLog.eq_nil_or_concat n.log with hnil | ⟨l, x, hl⟩
  · simp [hnil]
  · have hlen : n.log.length = l.length + 1 := by rw [hl, List.length_append, List.length_singleton]
    rw [if_neg (by omega), if_neg (by omega)]
    have hlast : n.log[n.snapshotIndex + n.log.length - n.snapshotIndex - 1]? = some x := by
      rw [show n.snapshotIndex + n.log.length - n.snapshotIndex - 1 = l.length by omega, hl]
      exact List.getElem?_concat_length
    rw [hlast, hl]
    simp

theorem lastLogTerm_folded (hge : n.snapshotIndex ≤ s) (hs : s ≤ n.lastLogIndex)
    (ht : n.termAt s = some t) : (n.folded s t config).lastLogTerm = n.lastLogTerm := by
  have h : (n.folded s t config).termAt n.lastLogIndex = n.termAt n.lastLogIndex :=
    termAt_folded hge hs ht hs
  have hlast : (n.folded s t config).lastLogIndex = n.lastLogIndex := lastLogIndex_folded hge hs
  rw [← hlast, termAt_lastLogIndex, hlast, termAt_lastLogIndex] at h
  exact Option.some.inj h

theorem entriesFrom_folded (hge : n.snapshotIndex ≤ s) {k : Nat} (hk : s < k) (limit : Nat) :
    (n.folded s t config).entriesFrom k limit = n.entriesFrom k limit := by
  obtain ⟨k, rfl⟩ : ∃ m, k = m + 1 := ⟨k - 1, by omega⟩
  rw [entriesFrom_eq (n := n.folded s t config) (Nat.le_of_lt_succ hk),
    entriesFrom_eq (hge.trans (Nat.le_of_lt_succ hk))]
  simp only [folded, List.drop_drop]
  congr 2
  omega

/-- Every index within the log has a term. -/
theorem exists_termAt (hge : n.snapshotIndex ≤ s) (hs : s ≤ n.lastLogIndex) :
    ∃ t, n.termAt s = some t := by
  have hle := length_le_of_le_lastLogIndex hs
  unfold termAt
  by_cases h : s = n.snapshotIndex
  · rw [if_pos h]
    exact ⟨_, rfl⟩
  · rw [if_neg h, if_neg (by omega), List.getElem?_eq_getElem (by omega)]
    exact ⟨_, rfl⟩

theorem termAt_past (hs : n.lastLogIndex < s) : n.termAt s = none := by
  unfold termAt
  have : n.snapshotIndex ≤ n.lastLogIndex := Nat.le_add_right _ _
  rw [if_neg (by omega), if_pos (Or.inr hs)]

/-! ## Memberships -/

theorem Indexed.index_take (h : n.Indexed) {k : Nat} {x : LogEntry}
    (hx : x ∈ n.log.take (k - n.snapshotIndex)) : x.index ≤ k := by
  obtain ⟨j, hj⟩ := List.mem_iff_getElem?.mp hx
  rw [List.getElem?_take] at hj
  split at hj
  · have := h _ _ hj
    omega
  · cases hj

end RaftNode

theorem findSome?_congr {α β : Type} {l : List α} {f g : α → Option β} (h : ∀ x ∈ l, f x = g x) :
    l.findSome? f = l.findSome? g := by
  induction l with
  | nil => rfl
  | cons x l ih =>
      rw [List.findSome?_cons, List.findSome?_cons, h x (by simp),
        ih fun y hy => h y (List.mem_cons_of_mem x hy)]

namespace RaftNode

variable {n : RaftNode} {s t : Nat} {config : Option (List Member)}

theorem Indexed.folded (h : n.Indexed) (hge : n.snapshotIndex ≤ s) :
    (n.folded s t config).Indexed := by
  intro k x hx
  simp only [RaftNode.folded, List.getElem?_drop] at hx ⊢
  rw [h _ _ hx]
  omega

end RaftNode

/-- The membership at `k` is that of the entries up to `k`. -/
theorem configAt_eq_take {n : RaftNode} (h : n.Indexed) (k : Nat) :
    n.configAt k
      = ((n.log.take (k - n.snapshotIndex)).reverse.findSome? fun x => parseConfig x.command).or
          n.snapshotConfig := by
  have hsplit := List.take_append_drop (k - n.snapshotIndex) n.log
  have hlater : (n.log.drop (k - n.snapshotIndex)).reverse.findSome?
      (fun x => if x.index ≤ k then parseConfig x.command else none) = none := by
    rw [List.findSome?_eq_none_iff]
    intro x hx
    obtain ⟨j, hj⟩ := List.mem_iff_getElem?.mp (List.mem_reverse.mp hx)
    rw [List.getElem?_drop] at hj
    have := h _ _ hj
    exact if_neg (by omega)
  have hearlier : (n.log.take (k - n.snapshotIndex)).reverse.findSome?
      (fun x => if x.index ≤ k then parseConfig x.command else none)
      = (n.log.take (k - n.snapshotIndex)).reverse.findSome? fun x => parseConfig x.command := by
    refine findSome?_congr fun x hx => if_pos ?_
    exact h.index_take (List.mem_reverse.mp hx)
  unfold RaftNode.configAt
  rw [← hsplit, List.reverse_append, List.findSome?_append, hsplit, hlater, Option.none_or, hearlier]

namespace RaftNode

variable {n : RaftNode} {s t : Nat}

/-- The newest membership is the one in effect at the end of the log. -/
theorem latestConfig_members (n : RaftNode) : n.latestConfig.2
    = (n.log.reverse.findSome? fun x => parseConfig x.command).or n.snapshotConfig := by
  unfold latestConfig
  induction n.log.reverse with
  | nil => rfl
  | cons x l ih =>
      simp only [List.findSome?_cons]
      cases parseConfig x.command with
      | none => exact ih
      | some ms => rfl

theorem latestConfig_folded (h : n.Indexed) :
    (n.folded s t (n.configAt s)).latestConfig.2 = n.latestConfig.2 := by
  rw [latestConfig_members, latestConfig_members]
  simp only [folded]
  rw [configAt_eq_take h, ← Option.or_assoc, ← List.findSome?_append, ← List.reverse_append,
    List.take_append_drop]

theorem configAt_folded (h : n.Indexed) (hge : n.snapshotIndex ≤ s) {k : Nat} (hk : s ≤ k) :
    (n.folded s t (n.configAt s)).configAt k = n.configAt k := by
  rw [configAt_eq_take (h.folded hge), configAt_eq_take h k]
  simp only [folded]
  rw [configAt_eq_take h s, ← Option.or_assoc, ← List.findSome?_append, ← List.reverse_append]
  -- the entries up to `s`, then those from there to `k`
  have hsplit : n.log.take (s - n.snapshotIndex)
      ++ (n.log.drop (s - n.snapshotIndex)).take (k - s) = n.log.take (k - n.snapshotIndex) := by
    rw [show k - n.snapshotIndex = s - n.snapshotIndex + (k - s) by omega, List.take_add]
  rw [hsplit]

/-! ## Compaction -/

/-- Two nodes that give the same answers about the log above index `i`, and
about terms and memberships from `i` on. -/
structure SameAnswers (i : Nat) (n m : RaftNode) : Prop where
  lastLogIndex : m.lastLogIndex = n.lastLogIndex
  lastLogTerm : m.lastLogTerm = n.lastLogTerm
  termAt : ∀ j, i ≤ j → m.termAt j = n.termAt j
  entryAt : ∀ j, i < j → m.entryAt j = n.entryAt j
  entriesFrom : ∀ j limit, i < j → m.entriesFrom j limit = n.entriesFrom j limit
  configAt : ∀ j, i ≤ j → m.configAt j = n.configAt j
  latestConfig : m.latestConfig.2 = n.latestConfig.2

theorem sameAnswers_folded (h : n.Indexed) (hge : n.snapshotIndex ≤ s) (hs : s ≤ n.lastLogIndex)
    (ht : n.termAt s = some t) : SameAnswers s n (n.folded s t (n.configAt s)) where
  lastLogIndex := lastLogIndex_folded hge hs
  lastLogTerm := lastLogTerm_folded hge hs ht
  termAt _ hj := termAt_folded hge hs ht hj
  entryAt _ hj := entryAt_folded hge hs hj
  entriesFrom _ limit hj := entriesFrom_folded hge hj limit
  configAt _ hj := configAt_folded h hge hj
  latestConfig := latestConfig_folded h

theorem compactThrough_eq_folded (hge : n.snapshotIndex ≤ s) (ht : n.termAt s = some t) :
    n.compactThrough s t (n.configAt s) = n.folded s t (n.configAt s) := by
  have hlog := n.compactThrough_log (n.configAt s) hge ht
  have hconfig : (n.configAt s).or (n.configAt s) = n.configAt s := by
    cases n.configAt s <;> rfl
  unfold compactThrough at hlog ⊢
  rw [hconfig] at hlog ⊢
  exact congrArg (fun log => { n with
    log := log
    snapshotIndex := s
    snapshotTerm := t
    snapshotConfig := n.configAt s }) hlog

/-- Compacting through an index of the log, with the term and the membership
the log has there, changes no answer above it. With another term, or past the
end, it leaves an empty log that ends with the given index and term. -/
theorem compactThrough_queries (h : n.Indexed) (i : Nat) :
    (n.snapshotIndex ≤ i → i ≤ n.lastLogIndex → ∃ term, n.termAt i = some term ∧
      SameAnswers i n (n.compactThrough i term (n.configAt i))) ∧
    ∀ term config, n.termAt i ≠ some term ∨ n.lastLogIndex < i →
      (n.compactThrough i term config).log = [] ∧
      (n.compactThrough i term config).lastLogIndex = i ∧
      (n.compactThrough i term config).lastLogTerm = term := by
  constructor
  · intro hge hs
    obtain ⟨term, ht⟩ := exists_termAt hge hs
    refine ⟨term, ht, ?_⟩
    rw [compactThrough_eq_folded hge ht]
    exact sameAnswers_folded h hge hs ht
  · intro term config hother
    have ht : n.termAt i ≠ some term := by
      rcases hother with ht | hpast
      · exact ht
      · rw [termAt_past hpast]
        exact nofun
    have hnil := n.compactThrough_nil config ht
    refine ⟨hnil, ?_, ?_⟩
    · rw [lastLogIndex, hnil]
      rfl
    · rw [lastLogTerm, hnil]
      rfl

/-- A node whose log begins after the third entry, with entries of two terms. -/
def startsLate : RaftNode :=
  { log := [{ term := 1, index := 4, command := .noop, username := "" },
      { term := 2, index := 5, command := .noop, username := "" }]
    snapshotIndex := 3
    snapshotTerm := 1 }

theorem indexed_startsLate : startsLate.Indexed := by
  intro k x hx
  rcases k with _ | _ | k
  · cases hx
    rfl
  · cases hx
    rfl
  · cases hx

theorem compactThrough_queries_startsLate :
    SameAnswers 4 startsLate (startsLate.compactThrough 4 1 none) := by
  obtain ⟨term, ht, hsame⟩ := (compactThrough_queries indexed_startsLate 4).1 (by decide) (by decide)
  obtain rfl : term = 1 := (Option.some.inj ht).symm
  exact hsame

end RaftNode

end KvCache
