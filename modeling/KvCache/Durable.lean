import Mathlib.Data.List.Perm.Subperm
import KvCache.CommitRule
import KvCache.Compaction
import KvCache.Office

/-!
# What a restart reads back

Memory and storage are changed by different lines of every operation.
Between two sections they agree (`Durable`), as long as no storage call
raises: what `load` returns is the node's term, vote, snapshot boundary,
membership and log, and every entry stands at the position its index names.
A restart therefore loses nothing (`restart_loses_nothing`).

A call that raises leaves memory ahead of storage. Which calls of a step did
is read off the outcomes the step used up (`Succeeds`).
-/

namespace KvCache

open StateWp Engine MemoryRaftStorage

/-! ## Calls that raise -/

/-- The step uses up no outcome of this kind of call that is a raise. -/
def Engine.Succeeds (e : Engine) (ev : NodeEvent) (k : StorageCall) : Prop :=
  ∃ used, e.faults k = used ++ (e.step ev).faults k ∧ true ∉ used

/-- From `x` to `y` a call of this kind raised. -/
def Raised (k : StorageCall) (x y : Engine) : Prop :=
  x.raises k = true ∧ y.faults k = (x.faults k).tail

section Faults

variable {ev : NodeEvent} {b : Bool} {x y : Engine}

theorem useFault_faults (e : Engine) (c k : StorageCall) :
    (e.useFault c).faults k = e.faults k ∨ (e.useFault c).faults k = (e.faults k).tail := by
  unfold Engine.useFault
  dsimp only
  split
  · exact Or.inr rfl
  · exact Or.inl rfl

theorem useFault_same (e : Engine) (k : StorageCall) :
    (e.useFault k).faults k = (e.faults k).tail := if_pos rfl

theorem uprooted_faults (e : Engine) (req : InstallSnapshotRequest) (k : StorageCall) :
    (e.uprooted req).faults k = e.faults k ∨
      (e.uprooted req).faults k = (e.faults k).tail ∧ k = .truncateFrom := by
  unfold Engine.uprooted
  split
  · by_cases hk : k = .truncateFrom
    · exact Or.inr ⟨if_pos hk, hk⟩
    · exact Or.inl (if_neg hk)
  · exact Or.inl rfl

/-- The last call of an installation comes after at most one call of another
kind. -/
theorem useFault_uprooted_faults (e : Engine) (req : InstallSnapshotRequest) (k : StorageCall) :
    ((e.uprooted req).useFault .saveSnapshot).faults k = e.faults k ∨
      ((e.uprooted req).useFault .saveSnapshot).faults k = (e.faults k).tail := by
  rcases uprooted_faults e req k with h | ⟨h, rfl⟩
  · rw [← h]
    exact useFault_faults _ _ _
  · exact Or.inr h

/-- A move uses up at most one outcome of each kind of call. -/
theorem Move.faults (hm : Move ev b x y) (k : StorageCall) :
    y.faults k = x.faults k ∨ y.faults k = (x.faults k).tail := by
  cases hm with
  | idle h => exact Or.inl (congrArg (·.faults k) h : _)
  | adoptTerm =>
      obtain ⟨l, ls, t, hd⟩ := stepDown_eq (x.enterTerm _).saveVote
      rw [hd]
      exact useFault_faults x _ k
  | adoptTermFails => exact useFault_faults x _ k
  | stepDown =>
      obtain ⟨l, ls, t, hd⟩ := stepDown_eq x
      rw [hd]
      exact Or.inl rfl
  | stand => exact useFault_faults x _ k
  | standFails => exact useFault_faults x _ k
  | vote => exact useFault_faults x _ k
  | voteFails => exact useFault_faults x _ k
  | noop =>
      obtain ⟨d, i, ms, ls, h, -⟩ := appended_eq x [x.newEntry .noop "" ""]
      rw [h]
      exact useFault_faults x _ k
  | noopFails => exact useFault_faults x _ k
  | propose timeout =>
      obtain ⟨d, i, ms, ls, c, h, -⟩ := proposed_eq x _ timeout
      rw [h]
      exact useFault_faults x _ k
  | proposeFails => exact useFault_faults x _ k
  | receive =>
      obtain ⟨d, i, ms, ls, h, -⟩ := appended_eq x _
      rw [h]
      exact useFault_faults x _ k
  | receiveFails => exact useFault_faults x _ k
  | truncate =>
      obtain ⟨d, ms, ls, h, -⟩ := truncated_eq x _
      rw [h]
      exact useFault_faults x _ k
  | truncateFails => exact useFault_faults x _ k
  | advanceCommit =>
      obtain ⟨c, h, -⟩ := advanceCommitIndex_eq x
      rw [h]
      exact Or.inl rfl
  | followCommit =>
      obtain ⟨c, h, -⟩ := followCommit_eq x _ _
      rw [h]
      exact Or.inl rfl
  | startReplicator =>
      obtain ⟨d, h, -⟩ := startReplicator_eq x _
      rw [h]
      exact Or.inl rfl
  | install =>
      obtain ⟨d, ms, ls, h, -⟩ := installed_eq (x.setLock .free) _
      rw [h]
      exact useFault_uprooted_faults (x.setLock .free) _ k
  | installFails ha hi h =>
      rcases h with ⟨rfl, -⟩ | ⟨rfl, -⟩
      · exact useFault_faults (x.setLock .free) _ k
      · exact useFault_uprooted_faults (x.setLock .free) _ k
  | compact => exact useFault_faults x _ k
  | compactFails => exact useFault_faults x _ k
  | _ => exact Or.inl rfl

/-- The outcomes that were used up are an initial part of the list. -/
theorem Move.used (hm : Move ev b x y) (k : StorageCall) :
    (∃ used, x.faults k = used ++ y.faults k) ∧
      (Raised k x y → ∃ used, x.faults k = used ++ y.faults k ∧ true ∈ used) := by
  have hraised : Raised k x y → ∃ used, x.faults k = used ++ y.faults k ∧ true ∈ used := by
    rintro ⟨hr, ht⟩
    unfold Engine.raises at hr
    rw [ht]
    cases hf : x.faults k with
    | nil =>
        rw [hf] at hr
        simp at hr
    | cons r rest =>
        obtain rfl : r = true := by simpa [hf] using hr
        exact ⟨[true], rfl, List.mem_singleton_self _⟩
  refine ⟨?_, hraised⟩
  rcases hm.faults k with h | h
  · exact ⟨[], h.symm⟩
  · rw [h]
    cases x.faults k with
    | nil => exact ⟨[], rfl⟩
    | cons r rest => exact ⟨[r], rfl⟩

theorem used_trans {l m n : List Bool} (h : ∃ used, l = used ++ m)
    (h' : ∃ used, m = used ++ n) : ∃ used, l = used ++ n := by
  obtain ⟨u, rfl⟩ := h
  obtain ⟨v, rfl⟩ := h'
  exact ⟨u ++ v, (List.append_assoc _ _ _).symm⟩

theorem Section.used (h : Section ev x y) (k : StorageCall) :
    ∃ used, x.faults k = used ++ y.faults k :=
  h.keeps (P := fun y => ∃ used, x.faults k = used ++ y.faults k) ⟨[], rfl⟩
    (fun _ _ _ huv hu => used_trans hu (huv.used k).1) fun _ _ _ hu => hu

/-- What every move keeps unless a call raises, a section keeps in which
none does. -/
theorem Section.keeps_of_succeeds {P : Engine → Prop} {K : StorageCall → Prop}
    (h : Section ev x y) (hs : ∀ k, K k → ∃ used, x.faults k = used ++ y.faults k ∧ true ∉ used)
    (h₀ : P x)
    (hm : ∀ b u v, Move ev b u v → (∀ k, K k → ¬ Raised k u v) → P u → P v)
    (ho : ∀ u, P u → P u.takeOffice) : P y := by
  -- either `P` still holds, or a raise has been used up
  have hrun : (∀ k, ∃ used, x.faults k = used ++ y.faults k) ∧
      (P y ∨ ∃ k, K k ∧ ∃ used, x.faults k = used ++ y.faults k ∧ true ∈ used) := by
    refine h.keeps (P := fun y => (∀ k, ∃ used, x.faults k = used ++ y.faults k) ∧
      (P y ∨ ∃ k, K k ∧ ∃ used, x.faults k = used ++ y.faults k ∧ true ∈ used))
      ⟨fun k => ⟨[], rfl⟩, Or.inl h₀⟩ (fun b u v huv hu => ?_) fun u _ _ hu => ?_
    · refine ⟨fun k => used_trans (hu.1 k) (huv.used k).1, ?_⟩
      by_cases hraised : ∃ k, K k ∧ Raised k u v
      · obtain ⟨k, hk, hr⟩ := hraised
        obtain ⟨used, hused⟩ := hu.1 k
        obtain ⟨more, hmore, htrue⟩ := (huv.used k).2 hr
        exact Or.inr ⟨k, hk, used ++ more, by rw [hused, hmore, List.append_assoc],
          List.mem_append_right _ htrue⟩
      · rcases hu.2 with hp | ⟨k, hk, used, hused, htrue⟩
        · exact Or.inl (hm b u v huv (fun k hk hr => hraised ⟨k, hk, hr⟩) hp)
        · obtain ⟨more, hmore⟩ := (huv.used k).1
          exact Or.inr ⟨k, hk, used ++ more, by rw [hused, hmore, List.append_assoc],
            List.mem_append_left _ htrue⟩
    · exact ⟨hu.1, hu.2.imp (ho u) id⟩
  rcases hrun.2 with hp | ⟨k, hk, used, hused, htrue⟩
  · exact hp
  · obtain ⟨used', hused', hno⟩ := hs k hk
    have heq : used = used' := List.append_cancel_right (hused.symm.trans hused')
    exact absurd (heq ▸ htrue) hno

end Faults

/-! ## What memory and storage have in common -/

/-- What a restart reads back, with the membership in force and the apply
lock. Term and vote are those of the storage. -/
def Engine.ledger (e : Engine) : Engine where
  settings := e.settings
  storage := e.storage
  node :=
    { currentTerm := e.storage.term
      votedFor := e.storage.votedFor
      log := e.node.log
      commitIndex := e.node.commitIndex
      lastApplied := e.node.lastApplied
      snapshotIndex := e.node.snapshotIndex
      snapshotTerm := e.node.snapshotTerm
      snapshotConfig := e.node.snapshotConfig }
  members := e.members
  applyLock := e.applyLock

/-- Storage and memory agree, the entries stand at their indexes, and the
members in force are those of the newest CONFIG entry. -/
structure Kept (e : Engine) : Prop where
  stored : Stored e.core
  indexed : e.node.Indexed
  config : ∃ ms, e.node.snapshotConfig = some ms
  snapshot_le : e.node.snapshotIndex ≤ e.node.lastApplied
  applied_le : e.node.lastApplied ≤ e.node.commitIndex
  applying : ∀ k y, e.applyLock = .applying k y → k ≤ e.node.commitIndex
  installing : ∀ y, e.applyLock = .installing y →
    e.node.lastApplied < y.request.lastIncludedIndex
  members : e.Current e.members

section Kept

variable {e : Engine}

theorem RaftNode.Indexed.append {n : RaftNode} {es : List LogEntry} (h : n.Indexed)
    (hes : ContinueAt (n.lastLogIndex + 1) es) : RaftNode.Indexed { n with log := n.log ++ es } := by
  intro k x hx
  dsimp only at hx ⊢
  by_cases hk : k < n.log.length
  · rw [List.getElem?_append_left hk] at hx
    exact h k x hx
  · rw [List.getElem?_append_right (by omega)] at hx
    have := hes _ x hx
    unfold RaftNode.lastLogIndex at this
    omega

theorem RaftNode.Indexed.take {n : RaftNode} (h : n.Indexed) (k : Nat) :
    RaftNode.Indexed { n with log := n.log.take k } := by
  intro j x hx
  dsimp only at hx ⊢
  rw [List.getElem?_take] at hx
  split at hx
  · exact h j x hx
  · cases hx

/-- Term and vote are saved. -/
theorem Kept.vote (h : Kept e) (t : Nat) (v : Option NodeId) :
    Kept { e with
      node := { e.node with currentTerm := t, votedFor := v }
      storage := e.storage.saveTermAndVote t v } where
  stored := { h.stored with term := rfl, vote := rfl }
  indexed := h.indexed
  config := h.config
  snapshot_le := h.snapshot_le
  applied_le := h.applied_le
  applying := h.applying
  installing := h.installing
  members := h.members

/-- Entries that continue the log are appended; `ms` are the members then. -/
theorem Kept.append (h : Kept e.ledger) {es : List LogEntry} (hne : es ≠ [])
    (hes : ContinueAt (e.node.lastLogIndex + 1) es) {ms : Dict NodeId Member}
    (hms : (e.extendLog es).Current ms) :
    Kept (Engine.ledger
      { e.extendLog es with storage := e.storage.append es, members := ms }) where
  stored :=
    have hst : Stored (e.ledger.core.withLog e.node.log e.storage) := h.stored
    have := Stored.append hst hne fun j y hy => by
      have := hes j y hy
      unfold RaftNode.lastLogIndex at this
      simp only [Engine.core, Engine.ledger]
      omega
    { this with term := rfl, vote := rfl }
  indexed := h.indexed.append hes
  config := h.config
  snapshot_le := h.snapshot_le
  applied_le := h.applied_le
  applying := h.applying
  installing := h.installing
  members := hms

/-- The log is cut off at an index above the snapshot. -/
theorem Kept.truncate (h : Kept e) {k : Nat} (hk : e.node.snapshotIndex ≤ k)
    {ms : Dict NodeId Member} (hms : (e.cutLog (k + 1)).Current ms) :
    Kept { e.cutLog (k + 1) with storage := e.storage.truncateFrom (k + 1), members := ms } where
  stored :=
    { h.stored with
      log := by
        have := h.stored.log.take (k - e.node.snapshotIndex)
        rw [show e.core.snapshotIndex + (k - e.node.snapshotIndex) + 1 = k + 1 from
          congrArg (· + 1) (Nat.add_sub_cancel' hk)] at this
        show Holds _ _ (e.node.truncateFrom (k + 1)).log
        rw [e.node.truncateFrom_log hk]
        exact this }
  indexed := by
    have := h.indexed.take (k - e.node.snapshotIndex)
    rw [← e.node.truncateFrom_log hk] at this
    exact this
  config := h.config
  snapshot_le := h.snapshot_le
  applied_le := h.applied_le
  applying := h.applying
  installing := h.installing
  members := hms

/-- More is committed. -/
theorem Kept.commit (h : Kept e) {k : Nat} (hk : e.node.commitIndex ≤ k) :
    Kept { e with node := { e.node with commitIndex := k } } where
  stored := { h.stored with applied := h.stored.applied.trans hk }
  indexed := h.indexed
  config := h.config
  snapshot_le := h.snapshot_le
  applied_le := h.applied_le.trans hk
  applying := fun k y hl => (h.applying k y hl).trans hk
  installing := h.installing
  members := h.members

/-- The apply lock is taken or given back. -/
theorem Kept.lock (h : Kept e) (lock : ApplyLock)
    (ha : ∀ k y, lock = .applying k y → k ≤ e.node.commitIndex)
    (hi : ∀ y, lock = .installing y → e.node.lastApplied < y.request.lastIncludedIndex) :
    Kept { e with applyLock := lock } :=
  { h with stored := { h.stored with }, applying := ha, installing := hi }

theorem Kept.free (h : Kept e) : Kept { e with applyLock := .free } :=
  h.lock .free (fun _ _ hl => by cases hl) fun _ hl => by cases hl

/-- The entries up to `k` go into a snapshot, and the rest of the log stays
in memory as on storage. -/
theorem kept_snapshot {k t a m : Nat} {c : List Member} {log : List LogEntry}
    {st : MemoryRaftStorage} {members : Dict NodeId Member} {l : ApplyLock}
    (hst : Stored (e.core.withLog log st)) (hidx : RaftNode.Indexed { e.node with log := log })
    (hk : e.node.snapshotIndex ≤ k) (hka : k ≤ a) (ham : a ≤ m)
    (ha : ∀ j y, l = .applying j y → j ≤ m)
    (hi : ∀ y, l = .installing y → a < y.request.lastIncludedIndex)
    (hms : Engine.Current { e with node := { e.node with
      log := log.drop (k - e.node.snapshotIndex), snapshotIndex := k, snapshotConfig := some c } }
        members) :
    Kept { e with
      node := { e.node with
        log := log.drop (k - e.node.snapshotIndex)
        commitIndex := m
        lastApplied := a
        snapshotIndex := k
        snapshotTerm := t
        snapshotConfig := some c }
      storage := st.saveSnapshot k t a (some c)
      members := members
      applyLock := l } where
  stored :=
    have hst' : Stored (({ e.core with snapshotConfig := some c } : Core).withLog log
        { st with config := some c }) := { hst with config := rfl }
    have := Stored.snapshot (t := t) hst' hk ham rfl
    { this with }
  indexed := (RaftNode.Indexed.folded (n := { e.node with log := log }) (t := t) hidx hk :
    (RaftNode.folded _ _ _ (some c)).Indexed)
  config := ⟨c, rfl⟩
  snapshot_le := hka
  applied_le := ham
  applying := ha
  installing := hi
  members := hms

/-- An entry is applied. -/
theorem Kept.applied (h : Kept e) {k : Nat} (hk : k ≤ e.node.commitIndex) :
    Kept { e with
      node := { e.node with lastApplied := max e.node.lastApplied k }
      applyLock := .free } where
  stored := { h.stored with }
  indexed := h.indexed
  config := h.config
  snapshot_le := h.snapshot_le.trans (Nat.le_max_left _ _)
  applied_le := Nat.max_le.mpr ⟨h.applied_le, hk⟩
  applying := fun _ _ hl => by cases hl
  installing := fun _ hl => by cases hl
  members := h.members

end Kept

/-! ## One move -/

/-- The entries of a request follow the index before them. -/
def NodeEvent.Consecutive (ev : NodeEvent) : Prop :=
  ∀ req, ev.Brings req → ContinueAt (req.prevLogIndex + 1) req.entries

section Entries

variable {ev : NodeEvent} {n m : RaftNode} {req : AppendEntriesRequest}

theorem continueAt_skipCovered (h : ContinueAt (req.prevLogIndex + 1) req.entries) :
    ContinueAt ((n.skipCovered req).2.1 + 1) (n.skipCovered req).1 ∧
      n.snapshotIndex ≤ (n.skipCovered req).2.1 := by
  unfold RaftNode.skipCovered
  split
  · rename_i hlt
    have := h.drop (n.snapshotIndex - req.prevLogIndex)
    rw [show req.prevLogIndex + 1 + (n.snapshotIndex - req.prevLogIndex)
      = n.snapshotIndex + 1 by omega] at this
    exact ⟨this, Nat.le_refl _⟩
  · rename_i hle
    exact ⟨h, Nat.le_of_not_lt hle⟩

/-- The first entry of the request that the log lacks lies in the log or right
after it. -/
theorem Accepts.index (ha : Accepts ev n req) (hev : ev.Consecutive) {pre rest : List LogEntry}
    {y : LogEntry} (hs : (n.skipCovered req).1 = pre ++ y :: rest)
    (hp : ∀ x ∈ pre, n.termAt x.index = some x.term) :
    n.snapshotIndex < y.index ∧ y.index ≤ n.lastLogIndex + 1 ∧ ContinueAt y.index (y :: rest) := by
  obtain ⟨hc, hge⟩ := continueAt_skipCovered (n := n) (hev req ha.brings)
  have hle := ha.prev_le
  generalize (n.skipCovered req).2.1 = k at hc hge hle
  rw [hs] at hc
  have hy : y.index = k + 1 + pre.length := hc pre.length y (by simp)
  have hpre : k + pre.length ≤ n.lastLogIndex := by
    rcases QuorumLog.eq_nil_or_concat pre with rfl | ⟨l, z, rfl⟩
    · exact hle
    · have hz : z.index = k + 1 + l.length := hc l.length z (by simp)
      have := (RaftNode.le_of_termAt (hp z (by simp))).2
      rw [List.length_append, List.length_singleton]
      omega
  have hrest := hc.drop pre.length
  rw [List.drop_left, ← hy] at hrest
  exact ⟨by omega, by omega, hrest⟩

/-- What a request brings continues the log it is appended to. -/
theorem Lacks.continues {es : List LogEntry} (hl : Lacks n m req es) (ha : Accepts ev n req)
    (hev : ev.Consecutive) : es ≠ [] ∧ ContinueAt (m.lastLogIndex + 1) es := by
  obtain ⟨pre, hs, hp⟩ := hl.split
  obtain ⟨y, rest, rfl, hnext⟩ := hl.next
  obtain ⟨hlow, hhigh, hc⟩ := ha.index hev hs hp
  refine ⟨List.cons_ne_nil _ _, ?_⟩
  rcases hnext with ⟨hnone, rfl⟩ | ⟨-, -, rfl⟩
  · have := (termAt_eq_none_iff hlow.le).mp hnone
    rwa [show m.lastLogIndex + 1 = y.index by omega]
  · obtain ⟨k, hk⟩ : ∃ k, y.index = k + 1 := ⟨y.index - 1, by omega⟩
    have hlast : (n.truncateFrom y.index).lastLogIndex + 1 = y.index := by
      rw [hk, RaftNode.lastLogIndex, n.truncateFrom_log (by omega), List.length_take]
      unfold RaftNode.lastLogIndex at hhigh
      simp only [RaftNode.truncateFrom]
      omega
    rwa [hlast]

end Entries

section Moves

variable {ev : NodeEvent} {b : Bool} {x y : Engine}

theorem Kept.appended (h : Kept x.ledger) {es : List LogEntry} (hne : es ≠ [])
    (hes : ContinueAt (x.node.lastLogIndex + 1) es) : Kept (x.appended es).ledger := by
  unfold Engine.appended
  dsimp only
  split
  · obtain ⟨d, ms, ls, hr, -, hc⟩ :=
      refreshConfig_eq ((x.extendLog es).stored .append (·.append es))
    rw [hr]
    exact h.append hne hes hc
  · rename_i hno
    refine h.append hne hes ?_
    -- no entry of `es` is a CONFIG entry
    have hes' : es.reverse.findSome? (fun x => parseConfig x.command) = none := by
      rw [List.findSome?_eq_none_iff]
      intro z hz
      have := fun hz' => hno (List.any_eq_true.mpr ⟨z, List.mem_reverse.mp hz, hz'⟩)
      exact Option.not_isSome_iff_eq_none.mp this
    have hold := h.members
    unfold Engine.Current at hold ⊢
    rw [RaftNode.latestConfig_members] at hold ⊢
    simp only [Engine.extendLog, Engine.ledger, List.reverse_append, List.findSome?_append, hes',
      Option.none_or] at hold ⊢
    exact hold

theorem Kept.advance (h : Kept x.ledger) : Kept x.advanceCommitIndex.ledger := by
  obtain ⟨k, hk, hor⟩ := advanceCommitIndex_eq x
  rw [hk]
  rcases hor with rfl | ⟨-, hscan⟩
  · exact h
  · exact h.commit (scanCommit_spec hscan).1.le

theorem continueAt_newEntry (e : Engine) (c : Command) (username requestId : String) :
    ContinueAt (e.node.lastLogIndex + 1) [e.newEntry c username requestId] := by
  intro j z hz
  cases j with
  | zero =>
      cases hz
      rfl
  | succ j => cases hz

theorem OwnEntry.continues {entry : LogEntry} (ho : OwnEntry ev x entry) :
    ContinueAt (x.node.lastLogIndex + 1) [entry] := by
  cases ho with
  | write => exact continueAt_newEntry x _ _ _
  | config => exact continueAt_newEntry x _ _ _

/-- Folding at the last applied entry keeps the entries after it. -/
theorem log_folded (e : Engine) (hle : e.node.snapshotIndex ≤ e.node.lastApplied) :
    e.folded.node.log = e.node.log.drop (e.node.lastApplied - e.node.snapshotIndex) := by
  unfold Engine.folded Engine.compact
  cases ht : e.node.termAt e.node.lastApplied with
  | some t => exact e.node.compactThrough_log _ hle ht
  | none =>
      have hlast := (termAt_eq_none_iff hle).mp ht
      unfold RaftNode.lastLogIndex at hlast
      rw [List.drop_of_length_le (by omega)]
      exact e.node.compactThrough_nil _ (by rw [ht]; exact Option.some_ne_none _ ∘ Eq.symm)

theorem Kept.compacted (h : Kept x.ledger) : Kept x.compacted.ledger := by
  have hle : x.node.snapshotIndex ≤ x.node.lastApplied := h.snapshot_le
  obtain ⟨c, hc⟩ : ∃ c, x.node.snapshotConfig = some c := h.config
  obtain ⟨ms, hms⟩ : ∃ ms, x.node.configAt x.node.lastApplied = some ms := by
    unfold RaftNode.configAt
    rw [hc]
    cases x.node.log.reverse.findSome? _ with
    | none => exact ⟨c, rfl⟩
    | some ms => exact ⟨ms, rfl⟩
  have hst : Stored (x.ledger.core.withLog x.node.log x.storage) := h.stored
  have hcur : Engine.Current { x with node := { x.node with
      log := x.node.log.drop (x.node.lastApplied - x.node.snapshotIndex)
      snapshotIndex := x.node.lastApplied
      snapshotConfig := some ms } } x.members := by
    have hidx : x.node.Indexed := h.indexed
    have hfold := RaftNode.latestConfig_folded (s := x.node.lastApplied) (t := x.node.snapshotTerm)
      hidx
    have hold : x.Current x.members := h.members
    unfold Engine.Current at hold ⊢
    rw [← hfold, hms] at hold
    exact hold
  have := kept_snapshot (e := x.ledger) (t := (x.node.termAt x.node.lastApplied).getD 0)
    (l := x.applyLock) hst h.indexed hle (Nat.le_refl _) h.applied_le h.applying h.installing hcur
  have heq : x.folded.node = { x.node with
      log := x.node.log.drop (x.node.lastApplied - x.node.snapshotIndex)
      snapshotIndex := x.node.lastApplied
      snapshotTerm := (x.node.termAt x.node.lastApplied).getD 0
      snapshotConfig := some ms } := by
    have hlog := log_folded x hle
    unfold Engine.folded Engine.compact RaftNode.compactThrough at hlog ⊢
    dsimp only at hlog ⊢
    rw [hlog, hms]
    rfl
  unfold Engine.compacted Engine.ledger Engine.stored Engine.store Engine.useFault
  dsimp only
  rw [heq, hms]
  exact this

/-- The log a snapshot leaves, and the storage it is recorded on. -/
theorem uprooted_parts (e : Engine) (req : InstallSnapshotRequest)
    (hle : e.node.snapshotIndex ≤ req.lastIncludedIndex) :
    ∃ log st, (log = e.node.log ∧ st = e.storage ∨
        log = [] ∧ st = e.storage.truncateFrom (e.node.snapshotIndex + 1)) ∧
      (e.uprooted req).storage = st ∧
      (e.uprooted req).node = { e.node with
        log := log.drop (req.lastIncludedIndex - e.node.snapshotIndex)
        commitIndex := max e.node.commitIndex req.lastIncludedIndex
        lastApplied := max e.node.lastApplied req.lastIncludedIndex
        snapshotIndex := req.lastIncludedIndex
        snapshotTerm := req.lastIncludedTerm
        snapshotConfig := some (req.config.getD []) } := by
  by_cases hm : e.Mismatch req
  · refine ⟨[], _, Or.inr ⟨rfl, rfl⟩, ?_⟩
    have hlog := e.node.compactThrough_nil (some (req.config.getD [])) hm
    unfold Engine.uprooted
    rw [if_pos hm, List.drop_nil, ← hlog]
    exact ⟨rfl, rfl⟩
  · refine ⟨e.node.log, _, Or.inl ⟨rfl, rfl⟩, ?_⟩
    have hlog := e.node.compactThrough_log (some (req.config.getD [])) hle (not_not.mp hm)
    unfold Engine.uprooted
    rw [if_neg hm, ← hlog]
    exact ⟨rfl, rfl⟩

theorem Kept.installed (h : Kept x.ledger) (hfree : x.applyLock = .free)
    {req : InstallSnapshotRequest} (hlt : x.node.lastApplied < req.lastIncludedIndex) :
    Kept (x.installed req).ledger := by
  have hle : x.node.snapshotIndex ≤ req.lastIncludedIndex := h.snapshot_le.trans hlt.le
  have happlied : x.node.lastApplied ≤ x.node.commitIndex := h.applied_le
  obtain ⟨log, st, hparts, hstorage, hnode⟩ := uprooted_parts x req hle
  obtain ⟨d, ms, ls, heq, -, hc⟩ := installed_eq x req
  obtain ⟨s, fs, hu⟩ := uprooted_eq x req
  have hboth : Stored (x.ledger.core.withLog log st) ∧
      RaftNode.Indexed { x.ledger.node with log := log } := by
    rcases hparts with ⟨rfl, rfl⟩ | ⟨rfl, rfl⟩
    · exact ⟨h.stored, h.indexed⟩
    · exact ⟨{ h.stored with log := h.stored.log.take 0 }, fun _ _ hy => by cases hy⟩
  unfold Engine.Current at hc
  rw [hnode] at hc
  have := kept_snapshot (e := x.ledger) (t := req.lastIncludedTerm) (c := req.config.getD [])
    (m := max x.node.commitIndex req.lastIncludedIndex)
    (a := max x.node.lastApplied req.lastIncludedIndex) (l := .free) hboth.1 hboth.2 hle
    (Nat.le_max_right _ _) (by omega) (fun _ _ hl => by cases hl) (fun _ hl => by cases hl) hc
  have hold : x.storage.term = st.term ∧ x.storage.votedFor = st.votedFor := by
    rcases hparts with ⟨-, rfl⟩ | ⟨-, rfl⟩
    · exact ⟨rfl, rfl⟩
    · exact ⟨rfl, rfl⟩
  have hsettings : (x.uprooted req).settings = x.settings ∧ (x.uprooted req).applyLock = .free := by
    rw [hu]
    exact ⟨rfl, hfree⟩
  rw [heq]
  unfold Engine.adopting Engine.tracking Engine.ledger Engine.stored Engine.store Engine.useFault
  dsimp only
  rw [hnode, hstorage, hsettings.1, hsettings.2]
  unfold Engine.ledger at this
  rw [hold.1, hold.2] at this
  exact this

theorem ledger_replyInstall (e : Engine) (install : Install) :
    (e.replyInstall install).ledger = e.ledger := rfl

/-- One move in which no storage call raises, apart from the saving of term
and vote. -/
theorem Move.kept (hm : Move ev b x y) (hev : ev.Consecutive)
    (hs : ∀ k, k ≠ .saveTermAndVote → ¬ Raised k x y) (h : Kept x.ledger) : Kept y.ledger := by
  cases hm with
  | idle h' =>
      rw [show y.ledger = x.ledger from (congrArg Engine.ledger h' : y.gist.ledger = x.gist.ledger)]
      exact h
  | adoptTerm =>
      obtain ⟨l, ls, t, hd⟩ := stepDown_eq (x.enterTerm _).saveVote
      rw [hd]
      exact h.vote _ _
  | stepDown =>
      obtain ⟨l, ls, t, hd⟩ := stepDown_eq x
      rw [hd]
      exact h
  | stand => exact h.vote _ _
  | vote => exact h.vote _ _
  | noop => exact h.appended (List.cons_ne_nil _ _) (continueAt_newEntry x _ _ _)
  | noopFails _ _ hr => exact absurd ⟨hr, useFault_same _ _⟩ (hs .append (by decide))
  | propose timeout ho =>
      have h' := h.appended (List.cons_ne_nil _ []) ho.continues
      exact Kept.advance (x := (x.appended [_]).addWaiter _) h'
  | proposeFails _ _ _ _ hr => exact absurd ⟨hr, useFault_same _ _⟩ (hs .append (by decide))
  | receive ha hl =>
      have := hl.continues ha hev
      exact h.appended this.1 this.2
  | receiveFails _ _ hr => exact absurd ⟨hr, useFault_same _ _⟩ (hs .append (by decide))
  | truncate ha hs' hp =>
      obtain ⟨hlow, -⟩ := ha.index hev hs' hp
      obtain ⟨k, hk⟩ : ∃ k, _ = k + 1 := Nat.exists_eq_add_one.mpr (Nat.zero_lt_of_lt hlow)
      obtain ⟨d, ms, ls, heq, hc⟩ := truncated_eq x (k + 1)
      rw [hk, heq]
      rw [hk] at hlow
      exact h.truncate (Nat.le_of_lt_succ hlow) hc
  | truncateFails _ _ _ _ _ hr => exact absurd ⟨hr, useFault_same _ _⟩ (hs .truncateFrom (by decide))
  | advanceCommit => exact h.advance
  | followCommit =>
      obtain ⟨k, hk, hle, -⟩ := followCommit_eq x _ _
      rw [hk]
      exact h.commit hle
  | startReplicator =>
      obtain ⟨d, hd, -⟩ := startReplicator_eq x _
      rw [hd]
      exact h
  | startInstall _ _ hlt =>
      refine h.lock _ (fun _ _ hl => by cases hl) fun _ hl => ?_
      cases hl
      exact hlt
  | install _ hi =>
      rw [ledger_replyInstall]
      exact Kept.installed (x := x.setLock .free) h.free rfl (h.installing _ hi)
  | installFails _ _ hor =>
      rcases hor with ⟨rfl, hr, -⟩ | ⟨rfl, hr⟩
      · exact absurd ⟨hr, useFault_same _ _⟩ (hs .truncateFrom (by decide))
      · refine absurd ⟨hr, ?_⟩ (hs .saveSnapshot (by decide))
        rcases uprooted_faults (x.setLock .free) _ .saveSnapshot with hf | ⟨-, hf⟩
        · rw [useFault_same, hf]
          rfl
        · cases hf
  | restoreFails => exact h.free
  | startApply _ _ _ hc =>
      refine h.lock _ (fun _ _ hl => ?_) fun _ hl => by cases hl
      cases hl
      exact hc
  | noteApplied _ hl => exact h.applied (h.applying _ _ hl)
  | stopApply => exact h.free
  | compact => exact h.compacted
  | compactFails _ _ hr => exact absurd ⟨hr, useFault_same _ _⟩ (hs .saveSnapshot (by decide))
  | _ => exact h

/-- Term and vote on storage are those in memory. -/
def Engine.VoteSaved (e : Engine) : Prop :=
  e.storage.term = e.node.currentTerm ∧ e.storage.votedFor = e.node.votedFor

theorem append_vote (s : MemoryRaftStorage) (es : List LogEntry) :
    (s.append es).term = s.term ∧ (s.append es).votedFor = s.votedFor := by
  rw [append_eq]
  exact ⟨rfl, rfl⟩

theorem VoteSaved.appended (h : x.VoteSaved) (es : List LogEntry) : (x.appended es).VoteSaved := by
  obtain ⟨d, i, ms, ls, heq, -⟩ := appended_eq x es
  have hs := append_vote x.storage es
  rw [heq]
  exact ⟨hs.1.trans h.1, hs.2.trans h.2⟩

theorem VoteSaved.advance (h : x.VoteSaved) : x.advanceCommitIndex.VoteSaved := by
  obtain ⟨k, hk, -⟩ := advanceCommitIndex_eq x
  rw [hk]
  exact h

/-- One move in which term and vote are saved without a raise. -/
theorem Move.voteSaved (hm : Move ev b x y) (hs : ¬ Raised .saveTermAndVote x y)
    (h : x.VoteSaved) : y.VoteSaved := by
  cases hm with
  | idle h' =>
      have hvote : x.gist.VoteSaved := h
      rw [← h'] at hvote
      exact hvote
  | adoptTerm =>
      obtain ⟨l, ls, t, hd⟩ := stepDown_eq (x.enterTerm _).saveVote
      rw [hd]
      exact ⟨rfl, rfl⟩
  | adoptTermFails _ _ hr => exact absurd ⟨hr, useFault_same _ _⟩ hs
  | stepDown =>
      obtain ⟨l, ls, t, hd⟩ := stepDown_eq x
      rw [hd]
      exact h
  | stand => exact ⟨rfl, rfl⟩
  | standFails _ hr => exact absurd ⟨hr, useFault_same _ _⟩ hs
  | vote => exact ⟨rfl, rfl⟩
  | voteFails _ hr => exact absurd ⟨hr, useFault_same _ _⟩ hs
  | noop => exact VoteSaved.appended h _
  | propose =>
      exact VoteSaved.advance (x := (x.appended [_]).addWaiter _) (VoteSaved.appended h _)
  | receive => exact VoteSaved.appended h _
  | truncate =>
      obtain ⟨d, ms, ls, heq, -⟩ := truncated_eq x _
      rw [heq]
      exact h
  | advanceCommit => exact VoteSaved.advance h
  | followCommit =>
      obtain ⟨k, hk, -⟩ := followCommit_eq x _ _
      rw [hk]
      exact h
  | startReplicator =>
      obtain ⟨d, hd, -⟩ := startReplicator_eq x _
      rw [hd]
      exact h
  | install =>
      obtain ⟨d, ms, ls, heq, -⟩ := installed_eq (x.setLock .free) _
      rw [heq]
      unfold Engine.uprooted
      split
      · exact h
      · exact h
  | installFails _ _ hor =>
      rcases hor with ⟨rfl, -⟩ | ⟨rfl, -⟩
      · exact h
      · unfold Engine.uprooted
        split
        · exact h
        · exact h
  | _ => exact h

end Moves

/-! ## Runs -/

section Runs

variable {e : Engine} {ev : NodeEvent}

/-- A restart reads back the log, and stores nothing. -/
theorem reload_node (h : Kept e.ledger) : e.blank.reload.node =
    { currentTerm := e.storage.term
      votedFor := e.storage.votedFor
      log := e.node.log
      commitIndex := max e.storage.lastApplied e.node.snapshotIndex
      lastApplied := max e.storage.lastApplied e.node.snapshotIndex
      snapshotIndex := e.node.snapshotIndex
      snapshotTerm := e.node.snapshotTerm
      snapshotConfig := e.node.snapshotConfig } := by
  have hlog : e.storage.load.log = e.node.log := load_log (h.stored.snapshotIndex ▸ h.stored.log)
  have hindex : e.storage.load.snapshotIndex = e.node.snapshotIndex := h.stored.snapshotIndex
  have hterm : e.storage.load.snapshotTerm = e.node.snapshotTerm := h.stored.snapshotTerm
  have hconfig : e.storage.load.snapshotConfig = e.node.snapshotConfig := h.stored.config
  show Engine.node (Engine.reload (Engine.blank e)) = _
  unfold Engine.reload Engine.blank
  dsimp only
  rw [hlog, hindex, hterm, hconfig]
  rfl

/-- The members are read off the log that was loaded. -/
theorem refreshed {r : Engine} (hf : r.node.state ≠ .leader) :
    r.refreshConfig.markUp.node = r.node ∧ r.refreshConfig.markUp.storage = r.storage ∧
      ∃ ms, r.Current ms ∧
        r.refreshConfig.markUp.ledger = { r.ledger with members := ms } := by
  obtain ⟨d, ms, ls, heq, -, hc⟩ := refreshConfig_eq r
  refine ⟨refreshConfig_node hf, ?_, ms, hc, ?_⟩
  · rw [heq]
    rfl
  · rw [heq]
    rfl

theorem kept_construct (h : Kept e.ledger) :
    Kept (after construct e).ledger ∧ (after construct e).VoteSaved ∧
      (after construct e).node = e.blank.reload.node ∧ (after construct e).storage = e.storage := by
  have hnode := reload_node h
  have hparts : e.blank.reload.storage = e.storage ∧ e.blank.reload.settings = e.settings ∧
      e.blank.reload.applyLock = .free := ⟨rfl, rfl, rfl⟩
  refine (wp_after (P := fun e' : Engine => Kept e'.ledger ∧ e'.VoteSaved ∧
    e'.node = e.blank.reload.node ∧ e'.storage = e.storage)).mp ?_
  simp only [construct, restorePersistentState, wp_bind, wp_get, wp_ite, wp_modify]
  generalize e.blank.reload = r at hnode hparts ⊢
  obtain ⟨ms, hms⟩ : ∃ ms, e.node.snapshotConfig = some ms := h.config
  have hsome : r.node.snapshotConfig ≠ none := by
    rw [hnode]
    exact hms ▸ Option.some_ne_none ms
  rw [if_neg hsome]
  obtain ⟨hkeep, hst, members, hc, hledger⟩ := refreshed (r := r) (by
    rw [hnode]
    intro hl
    cases hl)
  refine ⟨?_, ?_, hkeep, hst.trans hparts.1⟩
  · unfold Engine.Current at hc
    rw [hnode] at hc
    rw [hledger]
    unfold Engine.ledger
    rw [hnode, hparts.1, hparts.2.1, hparts.2.2]
    exact
      { stored := { h.stored with applied := Nat.le_max_left _ _ }
        indexed := h.indexed
        config := h.config
        snapshot_le := Nat.le_max_right _ _
        applied_le := Nat.le_refl _
        applying := fun _ _ hl => by cases hl
        installing := fun _ hl => by cases hl
        members := hc }
  · unfold Engine.VoteSaved
    rw [hkeep, hst, hnode, hparts.1]
    exact ⟨rfl, rfl⟩

/-- One step in which no storage call raises, apart from the saving of term
and vote. -/
theorem kept_step (hev : ev.Consecutive) (hs : ∀ k, k ≠ .saveTermAndVote → e.Succeeds ev k)
    (h : Kept e.ledger) : Kept (e.step ev).ledger := by
  by_cases hr : ev = .act .restart
  · subst hr
    exact (kept_construct h).1
  · exact (section_step hr).keeps_of_succeeds (P := fun y => Kept y.ledger) hs h
      (fun _ _ _ hm hno hu => hm.kept hev hno hu) fun _ hu => hu

theorem voteSaved_step (hs : e.Succeeds ev .saveTermAndVote) (hk : Kept e.ledger)
    (h : e.VoteSaved) : (e.step ev).VoteSaved := by
  by_cases hr : ev = .act .restart
  · subst hr
    exact (kept_construct hk).2.1
  · exact (section_step hr).keeps_of_succeeds (P := Engine.VoteSaved) (K := (· = .saveTermAndVote))
      (fun k hk => hk ▸ hs) h (fun _ _ _ hm hno hu => hm.voteSaved (hno _ rfl) hu) fun _ hu => hu

/-- The constructor of a new node records the bootstrap membership. -/
theorem kept_boot {settings : Settings} {faults : StorageCall → List Bool}
    (hf : faults .saveSnapshot = []) :
    Kept (boot settings faults).ledger ∧ (boot settings faults).VoteSaved := by
  refine (wp_after (P := fun e : Engine => Kept e.ledger ∧ e.VoteSaved)).mp ?_
  simp only [construct, restorePersistentState, wp_bind, wp_get, wp_ite, wp_modify]
  generalize hr : (Engine.blank { settings := settings, faults := faults }).reload = r
  have hnone : r.node.snapshotConfig = none := hr ▸ rfl
  have hno : ¬ r.useBootstrap.raises .saveSnapshot = true := by
    have : r.useBootstrap.faults .saveSnapshot = [] := hr ▸ hf
    unfold Engine.raises
    rw [this]
    decide
  rw [if_pos hnone, wp_storageCall, if_neg hno]
  simp only [wp_modify]
  generalize hb : (r.useBootstrap.useFault .saveSnapshot).store _ = b
  obtain ⟨hkeep, hst, members, hc, hledger⟩ := refreshed (r := b) (by
    subst hb hr
    intro hl
    cases hl)
  refine ⟨?_, ?_⟩
  · rw [hledger]
    subst hb hr
    exact
      { stored := ⟨rfl, rfl, rfl, rfl, rfl, Nat.le_refl _, Holds.empty 0⟩
        indexed := fun _ _ hy => by cases hy
        config := ⟨settings.bootstrap, rfl⟩
        snapshot_le := Nat.le_refl _
        applied_le := Nat.le_refl _
        applying := fun _ _ hl => by cases hl
        installing := fun _ hl => by cases hl
        members := hc }
  · unfold Engine.VoteSaved
    rw [hkeep, hst]
    subst hb hr
    exact ⟨rfl, rfl⟩

/-- Where no outcome is left, no call raises. -/
theorem succeeds_of_nil {k : StorageCall} (h : e.faults k = []) :
    e.Succeeds ev k ∧ (e.step ev).faults k = [] := by
  have hused : ∃ used, e.faults k = used ++ (e.step ev).faults k := by
    by_cases hr : ev = .act .restart
    · subst hr
      refine (wp_after (P := fun e' : Engine => ∃ used, e.faults k = used ++ e'.faults k)).mp ?_
      have hone : ∀ e' : Engine, e'.faults = e.faults →
          ∃ used, e.faults k = used ++ (e'.useFault .saveSnapshot).faults k := by
        intro e' he
        rcases useFault_faults e' .saveSnapshot k with hf | hf
        · exact ⟨[], by rw [hf, he, List.nil_append]⟩
        · exact ⟨[], by rw [hf, he, h]; rfl⟩
      have hrefresh : ∀ e' : Engine, e'.refreshConfig.markUp.faults = e'.faults := by
        intro e'
        obtain ⟨d, ms, ls, heq, -⟩ := refreshConfig_eq e'
        rw [heq]
        rfl
      simp only [Action.body, construct, restorePersistentState, wp_bind, wp_get, wp_ite,
        wp_modify, wp_storageCall, NodeEvent.body]
      split
      · split
        · exact hone _ rfl
        · rw [hrefresh]
          exact hone _ rfl
      · rw [hrefresh]
        exact ⟨[], rfl⟩
    · exact (section_step hr).used k
  obtain ⟨used, heq⟩ := hused
  rw [h] at heq
  obtain ⟨hnil, hnone⟩ := List.append_eq_nil_iff.mp heq.symm
  exact ⟨⟨[], by rw [h, hnone]; rfl, List.not_mem_nil⟩, hnone⟩

theorem faults_run {settings : Settings} {faults : StorageCall → List Bool} {k : StorageCall}
    (h : faults k = []) (evs : List NodeEvent) :
    ((boot settings faults).run evs).faults k = [] := by
  induction evs using List.reverseRecOn with
  | nil =>
      have : _ ∧ (Engine.step { settings := settings, faults := faults } (.act .restart)).faults k
          = [] := succeeds_of_nil h
      exact this.2
  | append_singleton evs ev ih =>
      rw [Engine.run, List.foldl_concat]
      exact (succeeds_of_nil ih).2

/-- The storage calls of a run, apart from the saving of term and vote, do
not raise. -/
def Engine.RunSucceeds (e : Engine) (evs : List NodeEvent) (k : StorageCall) : Prop :=
  ∀ pre ev post, evs = pre ++ ev :: post → (e.run pre).Succeeds ev k

theorem kept_run {evs : List NodeEvent} (hev : ∀ ev ∈ evs, ev.Consecutive)
    (hs : ∀ k, k ≠ .saveTermAndVote → e.RunSucceeds evs k) (h : Kept e.ledger) :
    Kept (e.run evs).ledger := by
  induction evs using List.reverseRecOn with
  | nil => exact h
  | append_singleton evs ev ih =>
      have hlast := ih (fun v hv => hev v (List.mem_append_left _ hv)) fun k hk pre v post hsplit =>
        hs k hk pre v (post ++ [ev]) (by rw [hsplit]; simp)
      rw [Engine.run, List.foldl_concat]
      exact kept_step (hev ev (by simp)) (fun k hk => hs k hk evs ev [] rfl) hlast

end Runs

/-! ## A restart -/

/-- What `load` returns is what the node has, each entry at its index. -/
structure LoadsBack (e : Engine) : Prop where
  term : e.storage.load.currentTerm = e.node.currentTerm
  vote : e.storage.load.votedFor = e.node.votedFor
  snapshotIndex : e.storage.load.snapshotIndex = e.node.snapshotIndex
  snapshotTerm : e.storage.load.snapshotTerm = e.node.snapshotTerm
  snapshotConfig : e.storage.load.snapshotConfig = e.node.snapshotConfig
  log : e.storage.load.log = e.node.log
  indexed : e.node.Indexed

/-- The second engine has what the first one must not forget. -/
structure SameAfter (e e' : Engine) : Prop where
  term : e'.node.currentTerm = e.node.currentTerm
  vote : e'.node.votedFor = e.node.votedFor
  snapshotIndex : e'.node.snapshotIndex = e.node.snapshotIndex
  snapshotTerm : e'.node.snapshotTerm = e.node.snapshotTerm
  snapshotConfig : e'.node.snapshotConfig = e.node.snapshotConfig
  log : e'.node.log = e.node.log
  members : ∀ id, e'.members.get? id = e.members.get? id

section Restart

variable {e : Engine}

theorem Kept.loadsBack (h : Kept e.ledger) (hv : e.VoteSaved) : LoadsBack e where
  term := hv.1
  vote := hv.2
  snapshotIndex := h.stored.snapshotIndex
  snapshotTerm := h.stored.snapshotTerm
  snapshotConfig := h.stored.config
  log := load_log (h.stored.snapshotIndex ▸ h.stored.log)
  indexed := h.indexed

theorem Kept.sameAfter (h : Kept e.ledger) (hv : e.VoteSaved) :
    SameAfter e (e.step (.act .restart)) := by
  obtain ⟨hkept, -, hnode, -⟩ := kept_construct h
  have hload := reload_node h
  have hstep : (e.step (.act .restart)).node = e.blank.reload.node := hnode
  have hmembers := Dict.sameItems_iff.mp h.members
  have hmembers' := Dict.sameItems_iff.mp hkept.members
  rw [hload] at hstep
  constructor
  · rw [hstep]
    exact hv.1
  · rw [hstep]
    exact hv.2
  · rw [hstep]
  · rw [hstep]
  · rw [hstep]
  · rw [hstep]
  · intro id
    have hlatest : (e.step (.act .restart)).ledger.node.latestConfig.2
        = e.ledger.node.latestConfig.2 := by
      rw [RaftNode.latestConfig_members, RaftNode.latestConfig_members]
      unfold Engine.ledger
      dsimp only
      rw [hstep]
    have h1 := hmembers' id
    rw [show (after construct e).ledger.node.latestConfig.2 = e.ledger.node.latestConfig.2
      from hlatest, hmembers id] at h1
    exact h1.symm

theorem kept_faultless (settings : Settings) {evs : List NodeEvent}
    (hev : ∀ ev ∈ evs, ev.Consecutive) :
    Kept ((boot settings fun _ => []).run evs).ledger ∧
      ((boot settings fun _ => []).run evs).VoteSaved := by
  induction evs using List.reverseRecOn with
  | nil => exact @kept_boot settings (fun _ => []) rfl
  | append_singleton evs ev ih =>
      obtain ⟨hk, hv⟩ := ih fun v hv => hev v (List.mem_append_left _ hv)
      have hs : ∀ k, ((boot settings fun _ => []).run evs).Succeeds ev k := fun k =>
        (succeeds_of_nil (faults_run rfl evs)).1
      rw [Engine.run, List.foldl_concat]
      exact ⟨kept_step (hev ev (by simp)) (fun k _ => hs k) hk, voteSaved_step (hs _) hk hv⟩

/-- Whatever a node does while its storage works, storage and memory agree
after it, and a restarted engine is where the old one was. -/
theorem restart_loses_nothing (settings : Settings) (evs : List NodeEvent)
    (hev : ∀ ev ∈ evs, ev.Consecutive) :
    LoadsBack ((boot settings fun _ => []).run evs) ∧
      SameAfter ((boot settings fun _ => []).run evs)
        (((boot settings fun _ => []).run evs).step (.act .restart)) := by
  obtain ⟨hk, hv⟩ := kept_faultless settings hev
  exact ⟨hk.loadsBack hv, hk.sameAfter hv⟩

theorem consecutive_call {env : Envelope} {peer : NodeId} {req : AppendEntriesRequest} {seq : Nat}
    (hc : env.call = .appendEntries peer req seq)
    (h : ContinueAt (req.prevLogIndex + 1) req.entries) :
    NodeEvent.Consecutive (.receive (.call env)) := by
  rintro req' ⟨env', peer', seq', hcalls, hcall⟩
  cases hcalls
  rw [hc] at hcall
  cases hcall
  exact h

theorem consecutive_act (a : Action) : NodeEvent.Consecutive (.act a) := by
  rintro req ⟨env, peer, seq, hcalls, -⟩
  cases hcalls

/-- The only node there is. -/
def lonely : Settings where
  nodeId := "n1"
  raftAddress := "127.0.0.1:9001"
  bootstrap := [⟨"n1", "127.0.0.1:9001", ""⟩]

/-- One of two members. -/
def follower : Settings where
  nodeId := "n1"
  raftAddress := "127.0.0.1:9001"
  bootstrap := [⟨"n1", "127.0.0.1:9001", ""⟩, ⟨"n2", "127.0.0.1:9002", ""⟩]

/-- The lonely node elects itself, takes a write and folds its log. -/
def lonelyRun : List NodeEvent :=
  [.act .start, .act (.propose "SET a 1" "dave" "" 5000), .act .beginApply,
    .act (.finishApply .none), .act .beginApply, .act (.finishApply (.bool true)),
    .act (.compact 1)]

theorem restart_loses_nothing_lonely :
    LoadsBack ((boot lonely fun _ => []).run lonelyRun) ∧
      SameAfter ((boot lonely fun _ => []).run lonelyRun)
        (((boot lonely fun _ => []).run lonelyRun).step (.act .restart)) := by
  refine restart_loses_nothing lonely lonelyRun fun ev hev => ?_
  obtain ⟨a, rfl⟩ : ∃ a, ev = .act a := by
    simp only [lonelyRun, List.mem_cons, List.not_mem_nil, or_false] at hev
    rcases hev with rfl | rfl | rfl | rfl | rfl | rfl | rfl
    all_goals exact ⟨_, rfl⟩
  exact consecutive_act a

end Restart

end KvCache
