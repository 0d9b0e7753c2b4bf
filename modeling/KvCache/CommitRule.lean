import Mathlib.Order.Bounds.Defs
import KvCache.ClusterSafety
import KvCache.LogQueries

/-!
# What a leader commits

`_advance_commit_index` walks down from the end of the log and stops at the
first index of another term, or at the first one that a majority holds. That
this finds the highest index of the leader's term held by a majority rests on
the order of the terms: they do not decrease along the log, and none is above
the leader's own (`TermsInOrder`). Every node of every run with one fixed
membership has its terms in that order (`WorldRel.termsInOrder`).
-/

namespace KvCache

open Engine

/-! ## The terms of a log -/

namespace RaftNode

/-- The terms from the snapshot boundary to the end of the log. -/
def terms (n : RaftNode) : List Nat := n.snapshotTerm :: n.log.map LogEntry.term

/-- They never decrease, up to the term the node is in. -/
def TermsInOrder (n : RaftNode) : Prop := (n.terms ++ [n.currentTerm]).Pairwise (· ≤ ·)

instance (n : RaftNode) : Decidable n.TermsInOrder := inferInstanceAs (Decidable (List.Pairwise _ _))

variable {n : RaftNode}

theorem termAt_eq_getElem? {k : Nat} (hk : n.snapshotIndex ≤ k) :
    n.termAt k = n.terms[k - n.snapshotIndex]? := by
  unfold termAt terms lastLogIndex
  rcases Nat.eq_or_lt_of_le hk with rfl | hlt
  · simp
  · rw [if_neg (by omega)]
    obtain ⟨m, hm⟩ : ∃ m, k - n.snapshotIndex = m + 1 := ⟨k - n.snapshotIndex - 1, by omega⟩
    rw [hm, List.getElem?_cons_succ, List.getElem?_map, Nat.add_sub_cancel]
    by_cases hlast : n.snapshotIndex + n.log.length < k
    · rw [if_pos (Or.inr hlast), List.getElem?_eq_none (by omega)]
      rfl
    · rw [if_neg (by omega)]

theorem le_of_termAt {k t : Nat} (h : n.termAt k = some t) :
    n.snapshotIndex ≤ k ∧ k ≤ n.lastLogIndex := by
  have hpast : ¬ n.lastLogIndex < k := fun hlt => nomatch h.symm.trans (termAt_past hlt)
  refine ⟨?_, by omega⟩
  by_contra hlt
  unfold termAt at h
  rw [if_neg (by omega), if_pos (Or.inl (by omega))] at h
  cases h

theorem TermsInOrder.termAt_le (ho : n.TermsInOrder) {k t : Nat} (h : n.termAt k = some t) :
    t ≤ n.currentTerm := by
  rw [termAt_eq_getElem? (le_of_termAt h).1] at h
  exact (List.pairwise_append.mp ho).2.2 t (List.mem_of_getElem? h) _ (List.mem_singleton_self _)

theorem TermsInOrder.termAt_mono (ho : n.TermsInOrder) {j k t u : Nat} (hjk : j ≤ k)
    (hj : n.termAt j = some t) (hk : n.termAt k = some u) : t ≤ u := by
  have hs := (le_of_termAt hj).1
  rw [termAt_eq_getElem? hs] at hj
  rw [termAt_eq_getElem? (hs.trans hjk)] at hk
  obtain ⟨hj', rfl⟩ := List.getElem?_eq_some_iff.mp hj
  obtain ⟨hk', rfl⟩ := List.getElem?_eq_some_iff.mp hk
  rcases Nat.eq_or_lt_of_le hjk with rfl | hlt
  · exact Nat.le_refl _
  · exact List.pairwise_iff_getElem.mp (List.pairwise_append.mp ho).1 _ _ hj' hk' (by omega)

end RaftNode

/-! ## The rule -/

namespace Engine

/-- The leader knows that `member` holds its log up to `index`. -/
def HeldBy (e : Engine) (index : Nat) (member : NodeId) : Prop :=
  member = e.nodeId ∨ ∃ i ∈ e.node.matchIndex.get? member, index ≤ i

instance (e : Engine) (index : Nat) : DecidablePred (e.HeldBy index) := fun _ =>
  inferInstanceAs (Decidable (_ ∨ _))

/-- More than half of the members hold the log up to `index`. -/
def HeldByMajority (e : Engine) (index : Nat) : Prop :=
  e.members.size < 2 * (e.members.keys.filter (e.HeldBy index)).length

/-- An index above the commit index, of the leader's own term, that a majority
of the members holds. -/
def Committable (e : Engine) (index : Nat) : Prop :=
  e.node.commitIndex < index ∧ e.node.termAt index = some e.node.currentTerm ∧
    e.HeldByMajority index

end Engine

variable {e : Engine}

/-- The count of the code: a member without a match entry holds nothing. -/
theorem majority_le_replicas_iff {index : Nat} (hpos : 0 < index) :
    e.majority ≤ e.replicas index ↔ e.HeldByMajority index := by
  have hholds : ∀ m, (decide (m = e.nodeId ∨ index ≤ e.node.matchIndex.getD m 0)) = true
      ↔ decide (e.HeldBy index m) = true := by
    intro m
    rw [decide_eq_true_iff, decide_eq_true_iff]
    refine or_congr Iff.rfl ?_
    unfold Dict.getD
    cases e.node.matchIndex.get? m with
    | none => simpa using Nat.ne_of_gt hpos
    | some i => simp
  have hcount : e.replicas index = (e.members.keys.filter (e.HeldBy index)).length := by
    unfold replicas countMembers
    rw [List.countP_congr fun m _ => hholds m, List.countP_eq_length_filter]
  unfold majority HeldByMajority
  rw [hcount]
  omega

/-- The walk down from `k` finds the highest index of them all. -/
theorem scanCommit_exact (ho : e.node.TermsInOrder) {k : Nat} (hk : k ≤ e.node.lastLogIndex) :
    (∃ j, e.scanCommit k = some j ∧ IsGreatest {i | i ≤ k ∧ e.Committable i} j) ∨
      e.scanCommit k = none ∧ ∀ i ≤ k, ¬ e.Committable i := by
  induction k with
  | zero =>
      refine Or.inr ⟨rfl, fun i hi hc => ?_⟩
      have := hc.1
      omega
  | succ k ih =>
      rw [scanCommit]
      split
      · rename_i hcommit
        refine Or.inr ⟨rfl, fun i hi hc => ?_⟩
        have := hc.1
        omega
      split
      · -- an older term here: there is none of the leader's below
        rename_i hterm
        refine Or.inr ⟨rfl, fun i hi hc => ?_⟩
        obtain ⟨t, ht⟩ := RaftNode.exists_termAt ((RaftNode.le_of_termAt hc.2.1).1.trans hi) hk
        have hle := ho.termAt_mono hi hc.2.1 ht
        have hge := ho.termAt_le ht
        exact hterm (by rw [ht, Nat.le_antisymm hge hle])
      rename_i hcommit hterm
      split
      · rename_i hmajority
        refine Or.inl ⟨k + 1, rfl, ⟨Nat.le_refl _, Nat.lt_of_not_le hcommit,
          Decidable.not_not.mp hterm, (majority_le_replicas_iff (Nat.succ_pos k)).mp hmajority⟩, ?_⟩
        exact fun i hi => hi.1
      · rename_i hmajority
        have htop : ¬ e.Committable (k + 1) := fun hc =>
          hmajority ((majority_le_replicas_iff (Nat.succ_pos k)).mpr hc.2.2)
        have hbelow : ∀ i, i ≤ k + 1 → e.Committable i → i ≤ k := fun i hi hc =>
          by
          rcases Nat.lt_or_eq_of_le hi with hlt | rfl
          · exact Nat.le_of_lt_succ hlt
          · exact absurd hc htop
        rcases ih (Nat.le_of_succ_le hk) with ⟨j, hj, hmem, hup⟩ | ⟨hnone, hall⟩
        · refine Or.inl ⟨j, hj, ⟨Nat.le_succ_of_le hmem.1, hmem.2⟩, ?_⟩
          exact fun i hi => hup ⟨hbelow i hi.1 hi.2, hi.2⟩
        · exact Or.inr ⟨hnone, fun i hi hc => hall i (hbelow i hi hc) hc⟩

/-- A leader commits the highest index of its own term that a majority holds,
or nothing where there is none; nothing else changes. -/
theorem advanceCommitIndex_exact (hleader : e.node.state = .leader) (ho : e.node.TermsInOrder) :
    ∃ index, e.advanceCommitIndex = { e with node := { e.node with commitIndex := index } } ∧
      e.node.commitIndex ≤ index ∧
      ((∃ j, e.Committable j) → IsGreatest {j | e.Committable j} index) ∧
      ((∀ j, ¬ e.Committable j) → index = e.node.commitIndex) := by
  have hin : ∀ j, e.Committable j → j ≤ e.node.lastLogIndex := fun j hj =>
    (RaftNode.le_of_termAt hj.2.1).2
  unfold advanceCommitIndex
  rw [if_neg (not_not_intro hleader)]
  rcases scanCommit_exact ho (Nat.le_refl _) with ⟨j, hj, hmem, hup⟩ | ⟨hnone, hall⟩
  · rw [hj]
    refine ⟨j, rfl, Nat.le_of_lt hmem.2.1, fun _ => ⟨hmem.2, ?_⟩, fun hno => absurd hmem.2 (hno j)⟩
    exact fun i hi => hup ⟨hin i hi, hi⟩
  · rw [hnone]
    refine ⟨e.node.commitIndex, rfl, Nat.le_refl _, ?_, fun _ => rfl⟩
    rintro ⟨j, hj⟩
    exact absurd hj (hall j (hin j hj))

/-- A leader outside its membership, with entries of two terms: its own copy
does not count, nor does the learner's. -/
def retiring : Engine :=
  { boot { nodeId := "n4", raftAddress := "a4", bootstrap := [] } fun _ => [] with
    node :=
      { state := .leader
        currentTerm := 2
        log := [{ term := 1, index := 1, command := .noop, username := "" },
          { term := 2, index := 2, command := .noop, username := "" },
          { term := 2, index := 3, command := .noop, username := "" }]
        matchIndex := Dict.ofList [("n1", 3), ("n2", 2), ("n5", 3)] }
    members := membersOf
      [⟨"n1", "a1", ""⟩, ⟨"n2", "a2", ""⟩, ⟨"n3", "a3", ""⟩]
    learners := membersOf [⟨"n5", "a5", ""⟩] }

theorem advanceCommitIndex_exact_retiring : IsGreatest {j | retiring.Committable j} 2 := by
  obtain ⟨index, h, -, hg, -⟩ :=
    advanceCommitIndex_exact (e := retiring) (by decide) (by decide +kernel)
  have hindex : index = 2 :=
    (congrArg (·.node.commitIndex) h).symm.trans (by decide +kernel)
  subst hindex
  exact hg ⟨2, by decide +kernel, by decide +kernel,
    (majority_le_replicas_iff (by decide)).mp (by decide +kernel)⟩

/-! ## Terms in a run -/

theorem WorldRel.termsInOrder {c : Cluster} {h : Hist} {w : World} (hw : WorldRel c h w)
    (i : NodeId) : (w.engines i).node.TermsInOrder := by
  have v : (w.engines i).node.Shows (h.log i) := (hw.nodes i).shows
  have hcur : h.cur i = (w.engines i).node.currentTerm := (hw.nodes i).cur
  have hback := hw.ok.backed i
  -- what precedes an entry was written by the leader of its term
  have horder : ((h.log i).map LogEntry.term).Pairwise (· ≤ ·) := by
    rw [List.pairwise_iff_getElem]
    intro j k hj hk hjk
    rw [List.length_map] at hj hk
    rw [List.getElem_map, List.getElem_map]
    have hpre : (h.log i).take k ++ [(h.log i)[k]] <+: h.log i := by
      rw [List.take_concat_get' _ _ hk]
      exact List.take_prefix _ _
    obtain ⟨hlead, hwon⟩ := hback _ _ hpre
    refine hw.ok.lead_le hwon _ (hlead.subset (List.mem_append_left _ ?_))
    exact List.mem_take_iff_getElem.mpr ⟨j, by omega, rfl⟩
  have hle : ∀ t ∈ (h.log i).map LogEntry.term, t ≤ (w.engines i).node.currentTerm := by
    intro t ht
    obtain ⟨x, hx, rfl⟩ := List.mem_map.mp ht
    exact hcur ▸ hw.ok.log_le i x hx
  -- the terms from the boundary on are the last of the whole log's
  have hterms : ∃ pre, 0 :: (h.log i).map LogEntry.term = pre ++ (w.engines i).node.terms := by
    unfold RaftNode.terms
    rw [v.term_eq, v.log_eq]
    rcases QuorumLog.eq_nil_or_concat ((h.log i).take (w.engines i).node.snapshotIndex) with
      hnil | ⟨p, x, hp⟩
    · refine ⟨[], ?_⟩
      rw [hnil]
      have := List.take_append_drop (w.engines i).node.snapshotIndex (h.log i)
      rw [hnil, List.nil_append] at this
      rw [this]
      rfl
    · refine ⟨0 :: p.map LogEntry.term, ?_⟩
      have hmap : (h.log i).map LogEntry.term = (p ++ [x]).map LogEntry.term
          ++ ((h.log i).drop (w.engines i).node.snapshotIndex).map LogEntry.term := by
        rw [← hp, ← List.map_append, List.take_append_drop]
      rw [hp, lastTerm, QuorumLog.lastTerm_concat, hmap]
      simp
  obtain ⟨pre, hpre⟩ := hterms
  have hall : (0 :: (h.log i).map LogEntry.term ++ [(w.engines i).node.currentTerm]).Pairwise
      (· ≤ ·) := by
    refine List.pairwise_append.mpr ⟨List.pairwise_cons.mpr ⟨fun _ _ => Nat.zero_le _, horder⟩,
      List.pairwise_singleton _ _, fun t ht u hu => ?_⟩
    obtain rfl := List.mem_singleton.mp hu
    rcases List.mem_cons.mp ht with rfl | ht
    · exact Nat.zero_le _
    · exact hle t ht
  rw [hpre, List.append_assoc] at hall
  exact (List.pairwise_append.mp hall).2.1

/-- Every node of every run with one fixed membership has its terms in order. -/
theorem termsInOrder_run {c : Cluster} {evs : List WorldEvent}
    (hfix : ∀ ev ∈ evs, ev.FixedMembership) (i : NodeId) :
    (((World.init c).run c evs).engines i).node.TermsInOrder := by
  obtain ⟨h, -, hw⟩ := (init_rel c).run hfix
  exact hw.termsInOrder i

end KvCache
