import KvCache.Durable

/-!
# The membership in force

The members a node uses are those of the newest CONFIG entry of its log, or
the snapshot's if there is none. A log is changed in four ways (`LogChange`);
one of them, folding a prefix into the snapshot, must not be visible in the
membership. The log that was never folded (`Unfolded`) is the measure: it
keeps every entry, and a folded log stays a fold of it (`FoldOf`) through all
changes.

All of this holds as long as no append, truncation or snapshot raises. An
append that raises leaves a CONFIG entry in the log which nobody adopts
(`unsaved_config_is_not_in_force`).
-/

namespace KvCache

open StateWp Engine

/-! ## Newest memberships -/

/-- The members of the last CONFIG entry. -/
def newestConfig (log : List LogEntry) : Option (List Member) :=
  log.reverse.findSome? fun x => parseConfig x.command

@[simp] theorem newestConfig_nil : newestConfig [] = none := rfl

theorem newestConfig_append (l l' : List LogEntry) :
    newestConfig (l ++ l') = (newestConfig l').or (newestConfig l) := by
  unfold newestConfig
  rw [List.reverse_append, List.findSome?_append]

theorem latestConfig_newest (n : RaftNode) :
    n.latestConfig.2 = (newestConfig n.log).or n.snapshotConfig := n.latestConfig_members

/-! ## Changes of a log -/

/-- What happens to the log of a node. -/
inductive LogChange where
  | append (entries : List LogEntry)
  /-- a conflict: the entries from `index` on are dropped -/
  | truncate (index : Nat)
  /-- the entries up to `index` go into a snapshot -/
  | compact (index : Nat)
  /-- a snapshot of another node is adopted -/
  | install (index term : Nat) (members : List Member)

namespace RaftNode

/-- The log with its snapshot boundary, and nothing else. -/
def logData (n : RaftNode) : RaftNode where
  log := n.log
  snapshotIndex := n.snapshotIndex
  snapshotTerm := n.snapshotTerm
  snapshotConfig := n.snapshotConfig

def change (n : RaftNode) : LogChange → RaftNode
  | .append entries => { n with log := n.log ++ entries }
  | .truncate index => n.truncateFrom index
  | .compact index => n.compactThrough index ((n.termAt index).getD 0) (n.configAt index)
  | .install index term members => n.compactThrough index term (some members)

/-- What the callers of the operation see to. -/
def Allows (n : RaftNode) : LogChange → Prop
  | .append entries => ContinueAt (n.lastLogIndex + 1) entries
  | .truncate index => n.snapshotIndex < index
  | .compact index => n.snapshotIndex ≤ index
  | .install index _ _ => n.snapshotIndex < index

/-- One change after another. -/
def replay (n : RaftNode) (cs : List LogChange) : RaftNode := cs.foldl change n

def AllowsAll (n : RaftNode) : List LogChange → Prop
  | [] => True
  | c :: cs => n.Allows c ∧ (n.change c).AllowsAll cs

theorem replay_append (n : RaftNode) (cs ds : List LogChange) :
    n.replay (cs ++ ds) = (n.replay cs).replay ds := List.foldl_append

theorem allowsAll_append {n : RaftNode} {cs ds : List LogChange} :
    n.AllowsAll (cs ++ ds) ↔ n.AllowsAll cs ∧ (n.replay cs).AllowsAll ds := by
  induction cs generalizing n with
  | nil => exact ⟨fun h => ⟨trivial, h⟩, And.right⟩
  | cons c cs ih => exact (and_congr_right fun _ => ih).trans and_assoc.symm

end RaftNode

/-- A log whose entries are never folded, and the membership before them. -/
structure Unfolded where
  base : Option (List Member)
  entries : List LogEntry

namespace Unfolded

/-- A snapshot that agrees with an entry replaces what precedes it, one that
does not replaces everything. -/
def change (u : Unfolded) : LogChange → Unfolded
  | .append entries => { u with entries := u.entries ++ entries }
  | .truncate index => { u with entries := u.entries.filter fun x => x.index < index }
  | .compact _ => u
  | .install index term members =>
    { base := some members
      entries := if u.entries.any fun x => x.index = index ∧ x.term = term then
          u.entries.filter fun x => index < x.index
        else [] }

def replay (u : Unfolded) (cs : List LogChange) : Unfolded := cs.foldl change u

/-- The newest membership. -/
def config (u : Unfolded) : Option (List Member) := (newestConfig u.entries).or u.base

end Unfolded

/-! ## A folded log and the unfolded one -/

/-- The log holds the entries after the boundary, the snapshot the newest
membership up to it. -/
structure FoldOf (n : RaftNode) (u : Unfolded) : Prop where
  indexed : n.Indexed
  sorted : u.entries.Pairwise fun x y => x.index < y.index
  log : n.log = u.entries.filter fun x => n.snapshotIndex < x.index
  config : n.snapshotConfig
    = (newestConfig (u.entries.filter fun x => x.index ≤ n.snapshotIndex)).or u.base

section FoldOf

variable {n : RaftNode} {u : Unfolded}

theorem filter_split {l : List LogEntry} (h : l.Pairwise fun x y => x.index < y.index) (k : Nat) :
    l.filter (fun x => x.index ≤ k) ++ l.filter (fun x => k < x.index) = l := by
  induction l with
  | nil => rfl
  | cons x l ih =>
      rw [List.pairwise_cons] at h
      by_cases hx : x.index ≤ k
      · rw [List.filter_cons_of_pos (by simpa using hx),
          List.filter_cons_of_neg (by simpa using hx), List.cons_append, ih h.2]
      · have hnone : l.filter (fun y => y.index ≤ k) = [] :=
          List.filter_eq_nil_iff.mpr fun y hy => by
            have := h.1 y hy
            simp only [decide_eq_true_eq]
            omega
        have hrest := ih h.2
        rw [hnone, List.nil_append] at hrest
        rw [List.filter_cons_of_neg (by simpa using hx),
          List.filter_cons_of_pos (by simpa using hx), hnone, hrest]
        rfl

/-- Both logs give the same members. -/
theorem FoldOf.latestConfig (h : FoldOf n u) : n.latestConfig.2 = u.config := by
  rw [latestConfig_newest, h.log, h.config, Unfolded.config, ← Option.or_assoc,
    ← newestConfig_append, filter_split h.sorted]

namespace RaftNode

/-- The entries after `k`, by position and by index. -/
theorem Indexed.filter_drop (h : n.Indexed) (k : Nat) :
    n.log.filter (fun x => k < x.index) = n.log.drop (k - n.snapshotIndex) := by
  have hearly : (n.log.take (k - n.snapshotIndex)).filter (fun x => k < x.index) = [] :=
    List.filter_eq_nil_iff.mpr fun x hx => by
      have := h.index_take hx
      simp only [decide_eq_true_eq]
      omega
  have hlate : (n.log.drop (k - n.snapshotIndex)).filter (fun x => k < x.index)
      = n.log.drop (k - n.snapshotIndex) := List.filter_eq_self.mpr fun x hx => by
    obtain ⟨j, hj⟩ := List.mem_iff_getElem?.mp hx
    rw [List.getElem?_drop] at hj
    have := h _ _ hj
    simp only [decide_eq_true_eq]
    omega
  conv_lhs => rw [← List.take_append_drop (k - n.snapshotIndex) n.log]
  rw [List.filter_append, hearly, hlate, List.nil_append]

/-- The entries up to `k`, by position and by index. -/
theorem Indexed.filter_take (h : n.Indexed) (k : Nat) :
    n.log.filter (fun x => x.index ≤ k) = n.log.take (k - n.snapshotIndex) := by
  have hearly : (n.log.take (k - n.snapshotIndex)).filter (fun x => x.index ≤ k)
      = n.log.take (k - n.snapshotIndex) := List.filter_eq_self.mpr fun x hx =>
    decide_eq_true (h.index_take hx)
  have hlate : (n.log.drop (k - n.snapshotIndex)).filter (fun x => x.index ≤ k) = [] :=
    List.filter_eq_nil_iff.mpr fun x hx => by
      obtain ⟨j, hj⟩ := List.mem_iff_getElem?.mp hx
      rw [List.getElem?_drop] at hj
      have := h _ _ hj
      simp only [decide_eq_true_eq]
      omega
  conv_lhs => rw [← List.take_append_drop (k - n.snapshotIndex) n.log]
  rw [List.filter_append, hearly, hlate, List.append_nil]

theorem Indexed.le_lastLogIndex (h : n.Indexed) {x : LogEntry} (hx : x ∈ n.log) :
    n.snapshotIndex < x.index ∧ x.index ≤ n.lastLogIndex := by
  obtain ⟨k, hk⟩ := List.mem_iff_getElem?.mp hx
  have hlt := (List.getElem?_eq_some_iff.mp hk).1
  have := h k x hk
  unfold lastLogIndex
  omega

/-- A term above the boundary is that of the entry with this index. -/
theorem Indexed.termAt_iff (h : n.Indexed) {k t : Nat} (hk : n.snapshotIndex < k) :
    n.termAt k = some t ↔ ∃ x ∈ n.log, x.index = k ∧ x.term = t := by
  constructor
  · intro ht
    unfold termAt at ht
    rw [if_neg (Nat.ne_of_gt hk)] at ht
    split at ht
    · cases ht
    · obtain ⟨x, hx, hterm⟩ := Option.map_eq_some_iff.mp ht
      refine ⟨x, List.mem_of_getElem? hx, ?_, hterm⟩
      have := h _ _ hx
      omega
  · rintro ⟨x, hx, rfl, rfl⟩
    have hle := (h.le_lastLogIndex hx).2
    obtain ⟨j, hj⟩ := List.mem_iff_getElem?.mp hx
    have hindex := h j x hj
    unfold termAt
    rw [if_neg (Nat.ne_of_gt hk), if_neg (by omega),
      show x.index - n.snapshotIndex - 1 = j by omega, hj]
    rfl

end RaftNode

/-! ### What each change does to both -/

/-- The log ends with the last entry of the unfolded log. -/
theorem FoldOf.index_le (h : FoldOf n u) {x : LogEntry} (hx : x ∈ u.entries) :
    x.index ≤ n.lastLogIndex := by
  by_cases hs : n.snapshotIndex < x.index
  · have hmem : x ∈ n.log := by
      rw [h.log]
      exact List.mem_filter.mpr ⟨hx, decide_eq_true hs⟩
    exact (h.indexed.le_lastLogIndex hmem).2
  · exact (Nat.le_of_not_lt hs).trans (Nat.le_add_right _ _)

/-- A part of the log and the same part of the unfolded log. -/
theorem FoldOf.filter_log (h : FoldOf n u) {k : Nat} (hk : n.snapshotIndex ≤ k) :
    n.log.filter (fun x => k < x.index) = u.entries.filter fun x => k < x.index := by
  rw [h.log, List.filter_filter]
  refine List.filter_congr fun x _ => ?_
  rw [← Bool.decide_and, decide_eq_decide]
  omega

theorem FoldOf.append (h : FoldOf n u) {es : List LogEntry}
    (hes : ContinueAt (n.lastLogIndex + 1) es) :
    FoldOf (n.change (.append es)) (u.change (.append es)) := by
  have hindex : ∀ x ∈ es, n.lastLogIndex < x.index := fun x hx => by
    obtain ⟨j, hj⟩ := List.mem_iff_getElem?.mp hx
    have := hes j x hj
    omega
  have hle : n.snapshotIndex ≤ n.lastLogIndex := Nat.le_add_right _ _
  refine ⟨h.indexed.append hes, ?_, ?_, ?_⟩
  · refine List.pairwise_append.mpr ⟨h.sorted, ?_, fun x hx y hy =>
      (h.index_le hx).trans_lt (hindex y hy)⟩
    rw [List.pairwise_iff_getElem]
    intro i j hi hj hij
    have h1 := hes i _ (List.getElem?_eq_getElem hi)
    have h2 := hes j _ (List.getElem?_eq_getElem hj)
    omega
  · have hall : es.filter (fun x => n.snapshotIndex < x.index) = es :=
      List.filter_eq_self.mpr fun x hx => decide_eq_true (hle.trans_lt (hindex x hx))
    show n.log ++ es = (u.entries ++ es).filter fun x => n.snapshotIndex < x.index
    rw [List.filter_append, hall, h.log]
  · have hnone : es.filter (fun x => x.index ≤ n.snapshotIndex) = [] :=
      List.filter_eq_nil_iff.mpr fun x hx => by
        have := hindex x hx
        simp only [decide_eq_true_eq]
        omega
    show n.snapshotConfig
      = (newestConfig ((u.entries ++ es).filter fun x => x.index ≤ n.snapshotIndex)).or u.base
    rw [List.filter_append, hnone, List.append_nil, h.config]

theorem FoldOf.truncate (h : FoldOf n u) {k : Nat} (hk : n.snapshotIndex < k) :
    FoldOf (n.change (.truncate k)) (u.change (.truncate k)) := by
  obtain ⟨k, rfl⟩ : ∃ j, k = j + 1 := Nat.exists_eq_add_one.mpr (Nat.zero_lt_of_lt hk)
  have hlog : (n.truncateFrom (k + 1)).log = n.log.filter fun x => x.index ≤ k := by
    rw [h.indexed.filter_take k]
    exact n.truncateFrom_log (Nat.le_of_lt_succ hk)
  refine ⟨?_, h.sorted.filter _, ?_, ?_⟩
  · have := h.indexed.take (k - n.snapshotIndex)
    rw [← n.truncateFrom_log (Nat.le_of_lt_succ hk)] at this
    exact this
  · show (n.truncateFrom (k + 1)).log
      = (u.entries.filter fun x => x.index < k + 1).filter fun x => n.snapshotIndex < x.index
    rw [hlog, h.log, List.filter_filter, List.filter_filter]
    refine List.filter_congr fun x _ => ?_
    rw [Bool.and_comm]
    congr 1
    rw [decide_eq_decide]
    omega
  · show n.snapshotConfig = (newestConfig ((u.entries.filter fun x => x.index < k + 1).filter
      fun x => x.index ≤ n.snapshotIndex)).or u.base
    rw [h.config, List.filter_filter]
    congr 2
    refine List.filter_congr fun x _ => ?_
    rw [← Bool.decide_and, decide_eq_decide]
    omega

/-- Folding keeps the entries after the new boundary. -/
theorem RaftNode.drop_of_compactThrough {k t : Nat} (config : Option (List Member))
    (hk : n.snapshotIndex ≤ k)
    (ht : n.termAt k = some t ∨ n.lastLogIndex < k) :
    (n.compactThrough k t config).log = n.log.drop (k - n.snapshotIndex) := by
  rcases ht with ht | ht
  · exact n.compactThrough_log config hk ht
  · have hnone := RaftNode.termAt_past ht
    unfold RaftNode.lastLogIndex at ht
    rw [n.compactThrough_nil config (by rw [hnone]; exact Option.some_ne_none _ ∘ Eq.symm),
      List.drop_of_length_le (by omega)]

theorem FoldOf.compact (h : FoldOf n u) {k : Nat} (hk : n.snapshotIndex ≤ k) :
    FoldOf (n.change (.compact k)) (u.change (.compact k)) := by
  have hlog : (n.change (.compact k)).log = n.log.drop (k - n.snapshotIndex) := by
    refine RaftNode.drop_of_compactThrough _ hk ?_
    rcases Nat.lt_or_ge n.lastLogIndex k with hlast | hlast
    · exact Or.inr hlast
    · obtain ⟨t, ht⟩ := RaftNode.exists_termAt hk hlast
      exact Or.inl (by rw [ht]; rfl)
  refine ⟨?_, h.sorted, ?_, ?_⟩
  · have : (n.folded k ((n.termAt k).getD 0) (n.configAt k)).Indexed := h.indexed.folded hk
    intro j x hx
    rw [hlog] at hx
    exact this j x hx
  · show _ = u.entries.filter fun x => k < x.index
    rw [hlog, ← h.indexed.filter_drop k, h.filter_log hk]
  · show (n.configAt k).or (n.configAt k)
      = (newestConfig (u.entries.filter fun x => x.index ≤ k)).or u.base
    rw [Option.or_self, configAt_eq_take h.indexed, ← h.indexed.filter_take k, h.log, h.config,
      ← Option.or_assoc]
    show ((newestConfig _).or _).or _ = _
    rw [← newestConfig_append]
    congr 2
    -- what was folded before, and what is folded now
    have hsplit := filter_split (h.sorted.filter fun x => x.index ≤ k) n.snapshotIndex
    rw [← hsplit, List.filter_filter, List.filter_filter, List.filter_filter]
    congr 1
    · refine List.filter_congr fun x _ => ?_
      rw [← Bool.decide_and, decide_eq_decide]
      omega
    · exact List.filter_congr fun x _ => Bool.and_comm _ _

theorem FoldOf.install (h : FoldOf n u) {k : Nat} (hk : n.snapshotIndex < k) (t : Nat)
    (ms : List Member) :
    FoldOf (n.change (.install k t ms)) (u.change (.install k t ms)) := by
  have hagree : (u.entries.any fun x => x.index = k ∧ x.term = t) = true ↔
      n.termAt k = some t := by
    rw [h.indexed.termAt_iff hk, List.any_eq_true, h.log]
    constructor
    · rintro ⟨x, hx, heq⟩
      obtain ⟨rfl, rfl⟩ := of_decide_eq_true heq
      exact ⟨x, List.mem_filter.mpr ⟨hx, decide_eq_true hk⟩, rfl, rfl⟩
    · rintro ⟨x, hx, rfl, rfl⟩
      exact ⟨x, (List.mem_filter.mp hx).1, decide_eq_true ⟨rfl, rfl⟩⟩
  have hentries : (u.change (.install k t ms)).entries
      = (n.change (.install k t ms)).log := by
    unfold Unfolded.change
    dsimp only
    split
    · rename_i hu
      rw [← h.filter_log hk.le, h.indexed.filter_drop k]
      exact (n.compactThrough_log (some ms) hk.le (hagree.mp hu)).symm
    · rename_i hu
      exact (n.compactThrough_nil (some ms) (mt hagree.mpr hu)).symm
  have hindexed : (n.change (.install k t ms)).Indexed := by
    intro j x hx
    by_cases ht : n.termAt k = some t
    · rw [show (n.change (.install k t ms)).log = _ from
        n.compactThrough_log (some ms) hk.le ht] at hx
      have : (n.folded k t (some ms)).Indexed := h.indexed.folded hk.le
      exact this j x hx
    · rw [show (n.change (.install k t ms)).log = _ from n.compactThrough_nil (some ms) ht] at hx
      cases hx
  have hlater : ∀ x ∈ (n.change (.install k t ms)).log, k < x.index := fun x hx =>
    (hindexed.le_lastLogIndex hx).1
  refine ⟨hindexed, ?_, ?_, ?_⟩
  · unfold Unfolded.change
    dsimp only
    split
    · exact h.sorted.filter _
    · exact List.Pairwise.nil
  · rw [hentries]
    exact (List.filter_eq_self.mpr fun x hx => decide_eq_true (hlater x hx)).symm
  · have hnone : (n.change (.install k t ms)).log.filter (fun x => x.index ≤ k) = [] :=
      List.filter_eq_nil_iff.mpr fun x hx => by
        have := hlater x hx
        simp only [decide_eq_true_eq]
        omega
    show some ms = (newestConfig ((u.change (.install k t ms)).entries.filter _)).or (some ms)
    rw [hentries]
    show some ms = (newestConfig ((n.change (.install k t ms)).log.filter fun x => x.index ≤ k)).or _
    rw [hnone]
    rfl

theorem FoldOf.change (h : FoldOf n u) {c : LogChange} (hc : n.Allows c) :
    FoldOf (n.change c) (u.change c) := by
  cases c with
  | append es => exact h.append hc
  | truncate k => exact h.truncate hc
  | compact k => exact h.compact hc
  | install k t ms => exact h.install hc t ms

/-- What was a fold stays one. -/
theorem FoldOf.replay (h : FoldOf n u) {cs : List LogChange} (hcs : n.AllowsAll cs) :
    FoldOf (n.replay cs) (u.replay cs) := by
  induction cs generalizing n u with
  | nil => exact h
  | cons c cs ih => exact ih (h.change hcs.1) hcs.2

end FoldOf

/-! ## The changes a node makes -/

/-- Allowed changes lead from one log to the other. -/
def Changed (n m : RaftNode) (cs : List LogChange) : Prop :=
  n.logData.AllowsAll cs ∧ m.logData = n.logData.replay cs

section Moves

variable {ev : NodeEvent} {b : Bool} {x y : Engine}

theorem changed_nil {n m : RaftNode} (h : m.logData = n.logData) : ∃ cs, Changed n m cs :=
  ⟨[], trivial, h⟩

theorem changed_one {n m : RaftNode} {c : LogChange} (hc : n.logData.Allows c)
    (h : m.logData = n.logData.change c) : ∃ cs, Changed n m cs :=
  ⟨[c], ⟨hc, trivial⟩, h⟩

theorem Changed.trans {n m l : RaftNode} {cs ds : List LogChange} (h : Changed n m cs)
    (h' : Changed m l ds) : Changed n l (cs ++ ds) := by
  refine ⟨RaftNode.allowsAll_append.mpr ⟨h.1, ?_⟩, ?_⟩
  · rw [← h.2]
    exact h'.1
  · rw [RaftNode.replay_append, ← h.2]
    exact h'.2

theorem changed_appended {es : List LogEntry} (hes : ContinueAt (x.node.lastLogIndex + 1) es) :
    ∃ cs, Changed x.node (x.appended es).node cs := by
  refine changed_one (c := .append es) hes ?_
  obtain ⟨d, i, ms, ls, h, -⟩ := appended_eq x es
  rw [h]
  rfl

theorem logData_advance (e : Engine) : e.advanceCommitIndex.node.logData = e.node.logData := by
  obtain ⟨k, hk, -⟩ := advanceCommitIndex_eq e
  rw [hk]
  rfl

theorem changed_installed {req : InstallSnapshotRequest}
    (hlt : x.node.snapshotIndex < req.lastIncludedIndex) :
    ∃ cs, Changed x.node (x.installed req).node cs := by
  refine changed_one (c := .install req.lastIncludedIndex req.lastIncludedTerm
    (req.config.getD [])) hlt ?_
  obtain ⟨d, ms, ls, h, -⟩ := installed_eq x req
  obtain ⟨st, fs, hu⟩ := uprooted_eq x req
  rw [h, hu]
  rfl

/-- A move in which no change of the log raises makes at most one change. -/
theorem Move.changed (hm : Move ev b x y) (hev : ev.Consecutive)
    (hs : ∀ k, k ≠ .saveTermAndVote → ¬ Raised k x y) (h : Kept x.ledger) :
    ∃ cs, Changed x.node y.node cs := by
  cases hm with
  | idle h' => exact changed_nil (congrArg (fun e : Engine => e.node.logData) h' :)
  | adoptTerm =>
      obtain ⟨l, ls, t, hd⟩ := stepDown_eq (x.enterTerm _).saveVote
      rw [hd]
      exact changed_nil rfl
  | stepDown =>
      obtain ⟨l, ls, t, hd⟩ := stepDown_eq x
      rw [hd]
      exact changed_nil rfl
  | noop => exact changed_appended (continueAt_newEntry x _ _ _)
  | noopFails _ _ hr => exact absurd ⟨hr, useFault_same _ _⟩ (hs .append (by decide))
  | propose timeout ho =>
      obtain ⟨cs, hcs⟩ := changed_appended (x := x) ho.continues
      exact ⟨cs, hcs.1, (logData_advance _).trans hcs.2⟩
  | proposeFails _ _ _ _ hr => exact absurd ⟨hr, useFault_same _ _⟩ (hs .append (by decide))
  | receive ha hl => exact changed_appended (hl.continues ha hev).2
  | receiveFails _ _ hr => exact absurd ⟨hr, useFault_same _ _⟩ (hs .append (by decide))
  | truncate ha hs' hp =>
      obtain ⟨hlow, -⟩ := ha.index hev hs' hp
      refine changed_one (c := .truncate _) hlow ?_
      obtain ⟨d, ms, ls, heq, -⟩ := truncated_eq x _
      rw [heq]
      rfl
  | truncateFails _ _ _ _ _ hr => exact absurd ⟨hr, useFault_same _ _⟩ (hs .truncateFrom (by decide))
  | advanceCommit => exact changed_nil (logData_advance x)
  | followCommit =>
      obtain ⟨k, hk, -⟩ := followCommit_eq x _ _
      rw [hk]
      exact changed_nil rfl
  | startReplicator =>
      obtain ⟨d, hd, -⟩ := startReplicator_eq x _
      rw [hd]
      exact changed_nil rfl
  | install _ hi =>
      have hle : x.node.snapshotIndex ≤ x.node.lastApplied := h.snapshot_le
      rw [node_replyInstall]
      exact changed_installed (x := x.setLock .free) (hle.trans_lt (h.installing _ hi))
  | installFails _ _ hor =>
      rcases hor with ⟨rfl, hr, -⟩ | ⟨rfl, hr⟩
      · exact absurd ⟨hr, useFault_same _ _⟩ (hs .truncateFrom (by decide))
      · refine absurd ⟨hr, ?_⟩ (hs .saveSnapshot (by decide))
        rcases uprooted_faults (x.setLock .free) _ .saveSnapshot with hf | ⟨-, hf⟩
        · rw [useFault_same, hf]
          rfl
        · cases hf
  | compact => exact changed_one (c := .compact x.node.lastApplied) h.snapshot_le rfl
  | compactFails _ _ hr => exact absurd ⟨hr, useFault_same _ _⟩ (hs .saveSnapshot (by decide))
  | _ => exact changed_nil rfl

end Moves

/-! ## Runs -/

/-- The changes of the log in a run, one event after another. -/
inductive Engine.History (e : Engine) : List NodeEvent → List LogChange → Prop
  | start : e.History [] []
  | step {evs : List NodeEvent} {cs ds : List LogChange} (ev : NodeEvent) (h : e.History evs cs)
      (hd : Changed (e.run evs).node ((e.run evs).step ev).node ds) :
      e.History (evs ++ [ev]) (cs ++ ds)

/-- The node's members, as its log and snapshot have them: those of the CONFIG
entry with the highest index. -/
inductive RaftNode.Newest (n : RaftNode) (ms : List Member) : Prop
  | logged {x : LogEntry} (hx : x ∈ n.log) (hms : parseConfig x.command = some ms)
      (hlast : ∀ y ∈ n.log, x.index < y.index → parseConfig y.command = none)
  | snapshot (hnone : ∀ y ∈ n.log, parseConfig y.command = none) (hms : n.snapshotConfig = some ms)

section Runs

variable {e : Engine} {evs : List NodeEvent}

theorem Engine.History.changed {cs : List LogChange} (h : e.History evs cs) :
    Changed e.node (e.run evs).node cs := by
  induction h with
  | start => exact ⟨trivial, rfl⟩
  | step ev _ hd ih =>
      rw [Engine.run, List.foldl_concat]
      exact ih.trans hd

/-- Every step is described by changes of the log. -/
theorem history_step {ev : NodeEvent} (hev : ev.Consecutive)
    (hs : ∀ k, k ≠ .saveTermAndVote → e.Succeeds ev k) (h : Kept e.ledger) :
    ∃ ds, Changed e.node (e.step ev).node ds := by
  by_cases hr : ev = .act .restart
  · subst hr
    refine changed_nil ?_
    obtain ⟨-, -, hnode, -⟩ := kept_construct h
    show (after construct e).node.logData = _
    rw [hnode, reload_node h]
    rfl
  · refine ((section_step hr).keeps_of_succeeds
      (P := fun y => Kept y.ledger ∧ ∃ ds, Changed e.node y.node ds) hs ⟨h, changed_nil rfl⟩
      (fun _ u v hm hno hu => ?_) fun _ hu => hu).2
    obtain ⟨hk, cs, hcs⟩ := hu
    obtain ⟨ds, hds⟩ := hm.changed hev hno hk
    exact ⟨hm.kept hev hno hk, cs ++ ds, hcs.trans hds⟩

theorem exists_history (hev : ∀ ev ∈ evs, ev.Consecutive)
    (hs : ∀ k, k ≠ .saveTermAndVote → e.RunSucceeds evs k) (h : Kept e.ledger) :
    ∃ cs, e.History evs cs := by
  induction evs using List.reverseRecOn with
  | nil => exact ⟨[], .start⟩
  | append_singleton evs ev ih =>
      have hev' : ∀ v ∈ evs, v.Consecutive := fun v hv => hev v (List.mem_append_left _ hv)
      have hs' : ∀ k, k ≠ .saveTermAndVote → e.RunSucceeds evs k := fun k hk pre v post hsplit =>
        hs k hk pre v (post ++ [ev]) (by rw [hsplit]; simp)
      obtain ⟨cs, hcs⟩ := ih hev' hs'
      obtain ⟨ds, hds⟩ := history_step (hev ev (by simp)) (fun k hk => hs k hk evs ev [] rfl)
        (kept_run hev' hs' h)
      exact ⟨cs ++ ds, .step ev hcs hds⟩

/-- The first log of a node. -/
theorem foldOf_boot {settings : Settings} {faults : StorageCall → List Bool}
    (hf : faults .saveSnapshot = []) :
    FoldOf (boot settings faults).node.logData ⟨some settings.bootstrap, []⟩ := by
  refine (wp_after (P := fun e : Engine =>
    FoldOf e.node.logData ⟨some settings.bootstrap, []⟩)).mp ?_
  simp only [construct, restorePersistentState, wp_bind, wp_get, wp_ite, wp_modify]
  generalize hr : (Engine.blank { settings := settings, faults := faults }).reload = r
  have hnone : r.node.snapshotConfig = none := hr ▸ rfl
  have hno : ¬ r.useBootstrap.raises .saveSnapshot = true := by
    have : r.useBootstrap.faults .saveSnapshot = [] := hr ▸ hf
    unfold Engine.raises
    rw [this]
    decide
  rw [if_pos hnone, wp_storageCall, if_neg hno]
  simp only [wp_modify]
  generalize hb : (r.useBootstrap.useFault .saveSnapshot).store _ = b
  obtain ⟨hkeep, -⟩ := refreshed (r := b) (by
    subst hb hr
    intro hl
    cases hl)
  rw [hkeep]
  subst hb hr
  constructor
  · intro k x hx
    cases hx
  · exact List.Pairwise.nil
  · rfl
  · rfl

/-- The last CONFIG entry is the one with the highest index. -/
theorem RaftNode.newest_of_latestConfig {n : RaftNode} (h : n.Indexed) {ms : List Member}
    (hms : n.latestConfig.2 = some ms) : n.Newest ms := by
  rw [latestConfig_newest] at hms
  cases hl : newestConfig n.log with
  | none =>
      rw [hl, Option.none_or] at hms
      refine .snapshot (fun y hy => ?_) hms
      exact List.findSome?_eq_none_iff.mp hl y (List.mem_reverse.mpr hy)
  | some ms' =>
      rw [hl] at hms
      obtain rfl : ms' = ms := Option.some.inj hms
      obtain ⟨later, x, earlier, hsplit, hx, hlater⟩ := List.findSome?_eq_some_iff.mp hl
      have hlog : n.log = earlier.reverse ++ x :: later.reverse := by
        rw [← List.reverse_reverse n.log, hsplit]
        simp
      refine .logged (x := x) (by rw [hlog]; simp) hx fun y hy hlt => ?_
      rw [hlog, List.mem_append, List.mem_cons, List.mem_reverse, List.mem_reverse] at hy
      rcases hy with hy | rfl | hy
      · -- an earlier entry has a lower index
        obtain ⟨j, hj⟩ := List.mem_iff_getElem?.mp (List.mem_reverse.mpr hy)
        have hjlt := (List.getElem?_eq_some_iff.mp hj).1
        have h1 := h j y (by rw [hlog, List.getElem?_append_left hjlt, hj])
        have h2 := h earlier.reverse.length x (by rw [hlog]; simp)
        omega
      · exact absurd hlt (Nat.lt_irrefl _)
      · exact hlater y hy

/-- In a run in which no change of the log raises, the members a node uses are
those of its newest CONFIG entry, and the membership is the one a log without
any compaction would give. -/
theorem newest_config_in_force (settings : Settings) (faults : StorageCall → List Bool)
    (hf : faults .saveSnapshot = []) (evs : List NodeEvent) (hev : ∀ ev ∈ evs, ev.Consecutive)
    (hs : ∀ k, k = .append ∨ k = .truncateFrom → (boot settings faults).RunSucceeds evs k) :
    ∃ ms, ((boot settings faults).run evs).node.Newest ms ∧
      (membersOf ms).sameItems ((boot settings faults).run evs).members = true ∧
      (∃ cs, (boot settings faults).History evs cs) ∧
      ∀ cs, (boot settings faults).History evs cs →
        (Unfolded.replay ⟨some settings.bootstrap, []⟩ cs).config = some ms := by
  have hboot : Kept (boot settings faults).ledger := (kept_boot hf).1
  have hs' : ∀ k, k ≠ .saveTermAndVote → (boot settings faults).RunSucceeds evs k := by
    intro k hk
    cases k with
    | saveTermAndVote => exact absurd rfl hk
    | append => exact hs _ (Or.inl rfl)
    | truncateFrom => exact hs _ (Or.inr rfl)
    | saveSnapshot => exact fun pre ev post _ => (succeeds_of_nil (faults_run hf pre)).1
  have hkept : Kept ((boot settings faults).run evs).ledger := kept_run hev hs' hboot
  obtain ⟨base, hbase⟩ : ∃ ms, ((boot settings faults).run evs).node.snapshotConfig = some ms :=
    hkept.config
  obtain ⟨ms, hms⟩ : ∃ ms, ((boot settings faults).run evs).node.latestConfig.2 = some ms := by
    rw [latestConfig_newest, hbase]
    cases newestConfig ((boot settings faults).run evs).node.log with
    | none => exact ⟨base, rfl⟩
    | some ms => exact ⟨ms, rfl⟩
  have hcurrent : ((boot settings faults).run evs).Current _ := hkept.members
  have hindexed : ((boot settings faults).run evs).node.Indexed := hkept.indexed
  refine ⟨ms, RaftNode.newest_of_latestConfig hindexed hms, ?_, exists_history hev hs' hboot,
    fun cs hcs => ?_⟩
  · unfold Engine.Current at hcurrent
    rw [hms] at hcurrent
    exact hcurrent
  · obtain ⟨hallowed, hreplay⟩ := hcs.changed
    have hboot' : FoldOf (boot settings faults).node.logData _ := foldOf_boot hf
    have hfold := hboot'.replay hallowed
    rw [← hfold.latestConfig, ← hreplay, ← hms, latestConfig_newest, latestConfig_newest]
    rfl

/-- A membership of three, sent by the leader of term 1. -/
def configRequest : AppendEntriesRequest where
  term := 1
  leaderId := "n2"
  prevLogIndex := 0
  prevLogTerm := some 0
  entries :=
    [{ term := 1, index := 1, username := ""
       command := .config (follower.bootstrap ++ [⟨"n3", "127.0.0.1:9003", ""⟩]) }]
  leaderCommit := 0

def configAppend : NodeEvent := .receive (.call
  { src := "n2", epoch := 1, address := "127.0.0.1:9001"
    call := .appendEntries "n1" configRequest 1 })

theorem consecutive_configAppend : configAppend.Consecutive :=
  consecutive_call rfl fun j x hx => by
    cases j with
    | zero =>
        cases hx
        rfl
    | succ j => cases hx

theorem consecutive_startConfigAppend : ∀ ev ∈ [.act .start, configAppend], ev.Consecutive := by
  intro ev hev
  simp only [List.mem_cons, List.not_mem_nil, or_false] at hev
  rcases hev with rfl | rfl
  · exact consecutive_act _
  · exact consecutive_configAppend

/-- The append raises: the CONFIG entry is in the log, and the members are
those before it. -/
theorem unsaved_config_is_not_in_force :
    ¬ ∀ (settings : Settings) (faults : StorageCall → List Bool) (evs : List NodeEvent),
      faults .saveSnapshot = [] → faults .truncateFrom = [] → (∀ ev ∈ evs, ev.Consecutive) →
        ∃ ms, ((boot settings faults).run evs).node.Newest ms ∧
          (membersOf ms).sameItems ((boot settings faults).run evs).members = true := by
  intro hall
  obtain ⟨ms, hnewest, hsame⟩ := hall follower (fun k => if k = .append then [true] else [])
    [.act .start, configAppend] rfl rfl consecutive_startConfigAppend
  have hlog : ((boot follower fun k => if k = .append then [true] else []).run
      [.act .start, configAppend]).node.log = configRequest.entries := by rfl
  have hms : ms = follower.bootstrap ++ [⟨"n3", "127.0.0.1:9003", ""⟩] := by
    rcases hnewest with ⟨hx, hms, -⟩ | ⟨hnone, -⟩
    · rw [hlog, configRequest, List.mem_singleton] at hx
      subst hx
      exact (Option.some.inj hms).symm
    · have := hnone _ (by rw [hlog]; exact List.mem_singleton_self _)
      cases this
  subst hms
  have hsize := (of_decide_eq_true hsame).1
  exact absurd hsize (by decide)

/-- The leader of term 2 puts a no-op in the place of that CONFIG entry, and a
membership of its own after it. -/
def replacingRequest : AppendEntriesRequest where
  term := 2
  leaderId := "n2"
  prevLogIndex := 0
  prevLogTerm := some 0
  entries :=
    [{ term := 2, index := 1, username := "", command := .noop },
      { term := 2, index := 2, username := ""
        command := .config (follower.bootstrap ++ [⟨"n4", "127.0.0.1:9004", ""⟩]) }]
  leaderCommit := 2

def replacingAppend : NodeEvent := .receive (.call
  { src := "n2", epoch := 1, address := "127.0.0.1:9001"
    call := .appendEntries "n1" replacingRequest 2 })

/-- The first membership is undone, the second is folded into the snapshot, and
the node is started again. -/
def replacedAndFolded : List NodeEvent :=
  [.act .start, configAppend, replacingAppend, .act .beginApply, .act (.finishApply .none),
    .act .beginApply, .act (.finishApply .none), .act (.compact 1), .act .restart, .act .start]

theorem consecutive_replacedAndFolded : ∀ ev ∈ replacedAndFolded, ev.Consecutive := by
  intro ev hev
  simp only [replacedAndFolded, List.mem_cons, List.not_mem_nil, or_false] at hev
  rcases hev with rfl | rfl | rfl | rfl | rfl | rfl | rfl | rfl | rfl | rfl
  · exact consecutive_act _
  · exact consecutive_configAppend
  · refine consecutive_call rfl fun j x hx => ?_
    rcases j with _ | _ | j
    · cases hx
      rfl
    · cases hx
      rfl
    · cases hx
  all_goals exact consecutive_act _

theorem newest_config_in_force_replaced :
    ((boot follower fun _ => []).run replacedAndFolded).node.snapshotIndex = 2 ∧
      ∃ ms, ((boot follower fun _ => []).run replacedAndFolded).node.Newest ms ∧
        (membersOf ms).sameItems ((boot follower fun _ => []).run replacedAndFolded).members = true ∧
        (∃ cs, (boot follower fun _ => []).History replacedAndFolded cs) ∧
        ∀ cs, (boot follower fun _ => []).History replacedAndFolded cs →
          (Unfolded.replay ⟨some follower.bootstrap, []⟩ cs).config = some ms :=
  ⟨by decide +kernel, newest_config_in_force follower (fun _ => []) rfl _
    consecutive_replacedAndFolded fun _ _ pre _ _ _ => (succeeds_of_nil (faults_run rfl pre)).1⟩

end Runs

end KvCache
