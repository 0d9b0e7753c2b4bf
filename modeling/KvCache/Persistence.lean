import Mathlib.Data.List.TakeWhile
import KvCache.Durable

/-!
# What a node acknowledges is on its storage

`_append_local` and `_truncate_local` change the log in memory and call the
storage afterwards, so a call that raises sets the two apart. After a raised
`truncate_from` memory is the beginning of what is stored, and the next
append puts that right. After a raised `append` memory is ahead of storage:
a request that is sent again finds its entries in the log and stores nothing,
and the answer acknowledges what a restart would not read back
(`unsaved_entry_is_acknowledged`).

A request leaves the log up to the last index to which the log has its
entries (`agreed`), cuts off what is in conflict with the rest, and appends
the rest. So all that its answer acknowledges is stored if what it leaves was
stored before. A leader appends at the end of its log and counts itself for
all of it; it needs the whole log on storage (`Saved`). That is what
`StoresFirst` asks of a step, of the state before it. In a run of such steps
`load` returns consecutive entries from the snapshot on, whichever appends and
truncations raise (`Backed`), a leader's memory is never ahead (`Honest`), and
`persisted_before_acknowledged` follows. A raised `truncate_from` alone does
no harm (`storesFirst_of_append_succeeds`).
-/

namespace KvCache

open StateWp Engine MemoryRaftStorage

/-! ## Acknowledgements -/

/-- `load` returns the node's entries from its snapshot up to index `m`. -/
def Engine.Persisted (e : Engine) (m : Nat) : Prop :=
  m ≤ e.node.lastLogIndex ∧ e.storage.load.snapshotIndex = e.node.snapshotIndex ∧
    e.storage.load.log.take (m - e.node.snapshotIndex)
      = e.node.log.take (m - e.node.snapshotIndex)

/-- The node answers an AppendEntries call with `r`. -/
def Engine.Answers (e : Engine) (ev : NodeEvent) (r : AppendEntriesResponse) : Prop :=
  ∃ env peer req seq e', ev = .receive (.call env) ∧ env.call = .appendEntries peer req seq ∧
    e.running = true ∧ (handleAppendEntries req).run e = .ok r e'

/-- A leader counts itself as a replica of every entry of its log. -/
def Engine.CountsItself (e : Engine) (m : Nat) : Prop :=
  e.node.state = .leader ∧ m ≤ e.node.lastLogIndex

/-! ## Storing first -/

/-- Memory is not ahead of storage. -/
def Engine.Saved (e : Engine) : Prop := e.node.log <+: e.storage.load.log

instance (e : Engine) : Decidable e.Saved := inferInstanceAs (Decidable (_ <+: _))

/-- The last index up to which the log has the entries of the request. -/
def RaftNode.agreed (n : RaftNode) (req : AppendEntriesRequest) : Nat :=
  (n.skipCovered req).2.1 +
    ((n.skipCovered req).1.takeWhile fun x => n.termAt x.index = some x.term).length

/-- The request passes the checks that come before its entries. -/
def Engine.Admits (e : Engine) (req : AppendEntriesRequest) : Prop :=
  e.running = true ∧ e.node.currentTerm ≤ req.term ∧
    (e.node.skipCovered req).2.1 ≤ e.node.lastLogIndex ∧
    e.node.termAt (e.node.skipCovered req).2.1 = (e.node.skipCovered req).2.2

/-- Nothing is acknowledged, and no office is taken, over a part of the log
that is in memory only. -/
structure Engine.StoresFirst (e : Engine) (ev : NodeEvent) : Prop where
  /-- what the log has of a request is stored, unless the step raises -/
  request : ∀ req, ev.Brings req → e.Admits req → (∀ k, e.Succeeds ev k) →
    e.Persisted (e.node.agreed req)
  /-- a leader's own entry is stored -/
  own : e.node.state = .leader → (∀ req, ¬ ev.Brings req) → e.Succeeds ev .append
  /-- so are the log and the no-op of a new leader -/
  office : e.node.state ≠ .leader → (e.step ev).node.state = .leader →
    e.Saved ∧ e.Succeeds ev .append

/-- Every step of the run stores first. -/
def Engine.RunStoresFirst (e : Engine) (evs : List NodeEvent) : Prop :=
  ∀ pre ev post, evs = pre ++ ev :: post → (e.run pre).StoresFirst ev

theorem Engine.RunStoresFirst.nil {e : Engine} : e.RunStoresFirst [] := fun pre ev post hs => by
  cases pre <;> cases hs

theorem Engine.RunStoresFirst.cons {e : Engine} {ev : NodeEvent} {evs : List NodeEvent}
    (h : e.StoresFirst ev) (hr : (e.step ev).RunStoresFirst evs) : e.RunStoresFirst (ev :: evs) := by
  intro pre v post hs
  cases pre with
  | nil =>
      cases hs
      exact h
  | cons x pre =>
      cases hs
      exact hr pre v post rfl

/-! ## What is stored -/

/-- The log of a node and its storage, but for term and vote. -/
def Engine.pages (e : Engine) : Engine where
  settings := e.settings
  storage := { e.storage with term := 0, votedFor := none }
  node :=
    { log := e.node.log
      lastApplied := e.node.lastApplied
      snapshotIndex := e.node.snapshotIndex
      snapshotTerm := e.node.snapshotTerm }
  applyLock := e.applyLock

/-- Storage holds consecutive entries from the node's snapshot on. -/
structure Backed (e : Engine) : Prop where
  boundary : e.storage.snapshotIndex = e.node.snapshotIndex
  config : ∃ ms, e.storage.config = some ms
  log : Holds e.storage.entries e.node.snapshotIndex e.storage.load.log
  snapshot_le : e.node.snapshotIndex ≤ e.node.lastApplied
  installing : ∀ y, e.applyLock = .installing y →
    e.node.lastApplied < y.request.lastIncludedIndex

section Backed

variable {e : Engine}

/-- `load` returns what storage holds. -/
theorem backed_of_holds {log : List LogEntry}
    (hb : e.storage.snapshotIndex = e.node.snapshotIndex) (hc : ∃ ms, e.storage.config = some ms)
    (hlog : Holds e.storage.entries e.node.snapshotIndex log)
    (hle : e.node.snapshotIndex ≤ e.node.lastApplied)
    (hi : ∀ y, e.applyLock = .installing y → e.node.lastApplied < y.request.lastIncludedIndex) :
    Backed e ∧ e.storage.load.log = log := by
  have hload : e.storage.load.log = log := load_log (hb ▸ hlog)
  exact ⟨⟨hb, hc, hload.symm ▸ hlog, hle, hi⟩, hload⟩

theorem Backed.persisted (h : Backed e.pages) (hs : e.Saved) {m : Nat}
    (hm : m ≤ e.node.lastLogIndex) : e.Persisted m := by
  refine ⟨hm, h.boundary, ?_⟩
  obtain ⟨rest, hrest⟩ : e.node.log <+: e.storage.load.log := hs
  unfold RaftNode.lastLogIndex at hm
  rw [← hrest, List.take_append_of_le_length (by omega)]

/-- All of the log is stored if it is up to its end. -/
theorem Engine.Persisted.saved (h : e.Persisted e.node.lastLogIndex) : e.Saved := by
  obtain ⟨-, -, htake⟩ := h
  unfold RaftNode.lastLogIndex at htake
  rw [Nat.add_sub_cancel_left, List.take_length] at htake
  exact List.prefix_iff_eq_take.mpr htake.symm

/-- Entries that continue the log are appended to it. -/
theorem Backed.appended (h : Backed e.pages) (hs : e.Saved) {es : List LogEntry} (hne : es ≠ [])
    (hes : ContinueAt (e.node.lastLogIndex + 1) es) :
    Backed (e.appended es).pages ∧ (e.appended es).Saved := by
  have htake : e.storage.load.log.take e.node.log.length = e.node.log :=
    (List.prefix_iff_eq_take.mp hs).symm
  have hholds : Holds (e.storage.append es).entries e.node.snapshotIndex (e.node.log ++ es) := by
    rw [← htake]
    refine holds_append (s := e.storage) h.log (List.IsPrefix.length_le hs) hne fun j x hx => ?_
    have := hes j x hx
    unfold RaftNode.lastLogIndex at this
    omega
  obtain ⟨d, i, ms, ls, heq, -⟩ := appended_eq e es
  have hparts : (e.storage.append es).snapshotIndex = e.storage.snapshotIndex ∧
      (e.storage.append es).config = e.storage.config := by
    rw [append_eq]
    exact ⟨rfl, rfl⟩
  obtain ⟨hb, hload⟩ := backed_of_holds (e := Engine.pages ((e.extendLog es).stored .append
    (·.append es))) (hparts.1.trans h.boundary) (hparts.2 ▸ h.config) hholds h.snapshot_le
    h.installing
  rw [heq]
  refine ⟨hb, ?_⟩
  show e.node.log ++ es <+: (e.storage.append es).load.log
  rw [show (e.storage.append es).load.log = _ from hload]

/-- The log is cut off behind an index; so is what is stored. -/
theorem Backed.truncated (h : Backed e.pages) {k : Nat} (hk : e.node.snapshotIndex ≤ k) :
    Backed (e.truncated (k + 1)).pages ∧
      (e.Persisted k → (e.truncated (k + 1)).Saved) := by
  have hholds := h.log.take (k - e.node.snapshotIndex)
  rw [show e.pages.node.snapshotIndex + (k - e.node.snapshotIndex) + 1 = k + 1 from
    congrArg (· + 1) (Nat.add_sub_cancel' hk)] at hholds
  obtain ⟨d, ms, ls, heq, -⟩ := truncated_eq e (k + 1)
  obtain ⟨hb, hload⟩ := backed_of_holds (e := Engine.pages ((e.cutLog (k + 1)).stored .truncateFrom
    (·.truncateFrom (k + 1)))) h.boundary h.config hholds h.snapshot_le h.installing
  rw [heq]
  refine ⟨hb, fun hp => ?_⟩
  show (e.node.truncateFrom (k + 1)).log <+: (e.storage.truncateFrom (k + 1)).load.log
  rw [show (e.storage.truncateFrom (k + 1)).load.log = _ from hload, e.node.truncateFrom_log hk]
  exact (show e.storage.load.log.take _ = _ from hp.2.2) ▸ List.prefix_rfl

/-- What a snapshot covers is dropped. -/
theorem holds_beyond {d : Dict Nat LogEntry} {log : List LogEntry} {snap k : Nat}
    (h : Holds d snap log) (hk : snap ≤ k) :
    Holds (d.filter fun p => k < p.1) k (log.drop (k - snap)) := by
  have := h.drop (k - snap)
  rwa [Nat.add_sub_cancel' hk] at this

theorem Backed.compacted (h : Backed e.pages) :
    Backed e.compacted.pages ∧ (e.Saved → e.compacted.Saved) := by
  have hle : e.node.snapshotIndex ≤ e.node.lastApplied := h.snapshot_le
  have hlog := log_folded e hle
  obtain ⟨ms, hms⟩ : ∃ ms, e.storage.config = some ms := h.config
  obtain ⟨hb, hload⟩ := backed_of_holds (e := e.compacted.pages) rfl
    (by
      show ∃ ms, (e.node.configAt e.node.lastApplied).or e.storage.config = some ms
      rw [hms]
      cases e.node.configAt e.node.lastApplied with
      | none => exact ⟨ms, rfl⟩
      | some c => exact ⟨c, rfl⟩)
    (holds_beyond h.log hle) (Nat.le_refl _) h.installing
  refine ⟨hb, fun hs => ?_⟩
  show e.folded.node.log <+: e.compacted.storage.load.log
  rw [hlog, show e.compacted.storage.load.log = _ from hload]
  exact List.IsPrefix.drop hs _

theorem Backed.installed (h : Backed e.pages) (hfree : e.applyLock = .free)
    {req : InstallSnapshotRequest} (hlt : e.node.lastApplied < req.lastIncludedIndex) :
    Backed (e.installed req).pages ∧ (e.Saved → (e.installed req).Saved) := by
  have hle : e.node.snapshotIndex ≤ req.lastIncludedIndex := Nat.le_trans h.snapshot_le hlt.le
  obtain ⟨log, st, hparts, hstorage, hnode⟩ := uprooted_parts e req hle
  obtain ⟨d, ms, ls, heq, -, -⟩ := installed_eq e req
  obtain ⟨s, fs, hu⟩ := uprooted_eq e req
  have hlock : (e.uprooted req).applyLock = .free := by
    rw [hu]
    exact hfree
  -- what is stored, and the log, before the snapshot covers their beginnings
  obtain ⟨stored, hholds, hpre⟩ : ∃ stored, Holds st.entries e.node.snapshotIndex stored ∧
      (e.Saved → log <+: stored) := by
    rcases hparts with ⟨rfl, rfl⟩ | ⟨rfl, rfl⟩
    · exact ⟨_, h.log, id⟩
    · exact ⟨_, h.log.take 0, fun _ => List.nil_prefix⟩
  rw [heq]
  have hrest : Holds ((e.uprooted req).storage.entries.filter
      fun p => (e.uprooted req).node.snapshotIndex < p.1) (e.uprooted req).node.snapshotIndex
      (stored.drop (req.lastIncludedIndex - e.node.snapshotIndex)) := by
    rw [hstorage, hnode]
    exact holds_beyond hholds hle
  have happlied : (e.uprooted req).node.snapshotIndex ≤ (e.uprooted req).node.lastApplied := by
    rw [hnode]
    exact Nat.le_max_right _ _
  obtain ⟨hb, hload⟩ := backed_of_holds (e := Engine.pages ((e.uprooted req).stored .saveSnapshot
      fun s => s.saveSnapshot (e.uprooted req).node.snapshotIndex (e.uprooted req).node.snapshotTerm
        (e.uprooted req).node.lastApplied (some (req.config.getD [])))) rfl ⟨_, rfl⟩ hrest happlied
    fun y hy => by
      rw [show (e.uprooted req).applyLock = _ from hy] at hlock
      cases hlock
  refine ⟨hb, fun hs => ?_⟩
  have hlog : (e.uprooted req).node.log
      <+: stored.drop (req.lastIncludedIndex - e.node.snapshotIndex) := by
    rw [hnode]
    exact List.IsPrefix.drop (hpre hs) _
  rw [← hload] at hlog
  exact hlog

end Backed

/-! ## Steps -/

/-- Storage is in order, its snapshots do not fail, and a leader's memory is
not ahead of it. -/
structure Honest (e : Engine) : Prop where
  backed : Backed e.pages
  leads : e.node.state = .leader → e.Saved
  snapshots : e.faults .saveSnapshot = []

section Moves

variable {ev : NodeEvent} {b : Bool} {e x y : Engine}

theorem Move.faults_nil (hm : Move ev b x y) {k : StorageCall} (h : x.faults k = []) :
    y.faults k = [] := by
  rcases hm.faults k with h' | h'
  · exact h'.trans h
  · rw [h', h]
    rfl

theorem not_raised_of_nil {k : StorageCall} (h : x.faults k = []) : ¬ Raised k x y := by
  intro hr
  have := hr.1
  unfold Engine.raises at this
  rw [h] at this
  cases this

/-- One move. Who appends, to its own log or what a request brings, does so
without a raise, and to a log that is stored. -/
theorem Move.backed (hm : Move ev b x y) (hev : ev.Consecutive) (hf : x.faults .saveSnapshot = [])
    (hl : x.node.state = .leader ∨ (∃ req, ev.Brings req) → x.Saved ∧ ¬ Raised .append x y)
    (h : Backed x.pages) : Backed y.pages ∧ (x.Saved → y.Saved) := by
  have hs := not_raised_of_nil (y := y) hf
  cases hm with
  | idle h' =>
      refine ⟨?_, fun hs => ?_⟩
      · rw [show y.pages = x.pages from (congrArg Engine.pages h' : y.gist.pages = x.gist.pages)]
        exact h
      · have hs' : x.gist.Saved := hs
        rw [← h'] at hs'
        exact hs'
  | adoptTerm =>
      obtain ⟨l, ls, t, hd⟩ := stepDown_eq (x.enterTerm _).saveVote
      rw [hd]
      exact ⟨h, id⟩
  | stepDown =>
      obtain ⟨l, ls, t, hd⟩ := stepDown_eq x
      rw [hd]
      exact ⟨h, id⟩
  | noop hl' =>
      obtain ⟨hb, hs⟩ := h.appended (hl (Or.inl hl')).1 (List.cons_ne_nil _ _) (continueAt_newEntry x _ _ _)
      exact ⟨hb, fun _ => hs⟩
  | noopFails hl' _ hr => exact absurd ⟨hr, useFault_same _ _⟩ (hl (Or.inl hl')).2
  | propose timeout ho _ hl' =>
      obtain ⟨hb, hs⟩ := h.appended (hl (Or.inl hl')).1 (List.cons_ne_nil _ []) ho.continues
      obtain ⟨k, hk, -⟩ := advanceCommitIndex_eq ((x.appended [_]).addWaiter _)
      unfold Engine.proposed
      rw [hk]
      exact ⟨hb, fun _ => hs⟩
  | proposeFails _ _ hl' _ hr => exact absurd ⟨hr, useFault_same _ _⟩ (hl (Or.inl hl')).2
  | receive ha hlacks =>
      obtain ⟨hne, hes⟩ := hlacks.continues ha hev
      obtain ⟨hb, hs⟩ := h.appended (hl (Or.inr ⟨_, ha.brings⟩)).1 hne hes
      exact ⟨hb, fun _ => hs⟩
  | receiveFails ha _ hr =>
      exact absurd ⟨hr, useFault_same _ _⟩ (hl (Or.inr ⟨_, ha.brings⟩)).2
  | truncate ha hs' hp =>
      obtain ⟨hlow, hhigh, -⟩ := ha.index hev hs' hp
      obtain ⟨k, hk⟩ : ∃ k, _ = k + 1 := Nat.exists_eq_add_one.mpr (Nat.zero_lt_of_lt hlow)
      rw [hk] at hlow hhigh ⊢
      obtain ⟨hb, hs⟩ := h.truncated (Nat.le_of_lt_succ hlow)
      exact ⟨hb, fun hx => hs (h.persisted hx (Nat.le_of_succ_le_succ hhigh))⟩
  | truncateFails ha hs' hp =>
      obtain ⟨hlow, -⟩ := ha.index hev hs' hp
      obtain ⟨k, hk⟩ : ∃ k, _ = k + 1 := Nat.exists_eq_add_one.mpr (Nat.zero_lt_of_lt hlow)
      rw [hk] at hlow ⊢
      refine ⟨{ h with }, fun hx => ?_⟩
      have hlog := x.node.truncateFrom_log (Nat.le_of_lt_succ hlow)
      show (x.node.truncateFrom (k + 1)).log <+: _
      rw [hlog]
      exact (List.take_prefix _ _).trans hx
  | advanceCommit =>
      obtain ⟨k, hk, -⟩ := advanceCommitIndex_eq x
      rw [hk]
      exact ⟨h, id⟩
  | followCommit =>
      obtain ⟨k, hk, -⟩ := followCommit_eq x _ _
      rw [hk]
      exact ⟨h, id⟩
  | startReplicator =>
      obtain ⟨d, hd, -⟩ := startReplicator_eq x _
      rw [hd]
      exact ⟨h, id⟩
  | startInstall _ _ hlt =>
      refine ⟨{ h with installing := fun y hy => ?_ }, id⟩
      cases hy
      exact hlt
  | install _ hi =>
      have hfree : Backed (x.setLock .free).pages := { h with installing := fun y hy => by cases hy }
      obtain ⟨hb, hs⟩ := hfree.installed rfl (h.installing _ hi)
      generalize (x.setLock .free).installed _ = z at hb hs
      exact ⟨hb, hs⟩
  | installFails _ _ hor =>
      have hfree : Backed (x.setLock .free).pages := { h with installing := fun y hy => by cases hy }
      rcases hor with ⟨rfl, -⟩ | ⟨rfl, hr⟩
      · exact ⟨hfree, id⟩
      · refine absurd ⟨hr, ?_⟩ hs
        rcases uprooted_faults (x.setLock .free) _ .saveSnapshot with hf | ⟨-, hf⟩
        · rw [useFault_same, hf]
          rfl
        · cases hf
  | restoreFails => exact ⟨{ h with installing := fun y hy => by cases hy }, id⟩
  | startApply => exact ⟨{ h with installing := fun y hy => by cases hy }, id⟩
  | noteApplied =>
      refine ⟨{ h with
        snapshot_le := Nat.le_trans h.snapshot_le (Nat.le_max_left _ _)
        installing := fun y hy => by cases hy }, id⟩
  | stopApply => exact ⟨{ h with installing := fun y hy => by cases hy }, id⟩
  | compact => exact h.compacted
  | compactFails _ _ hr => exact absurd ⟨hr, useFault_same _ _⟩ hs
  | _ => exact ⟨h, id⟩

/-- The constructor reads the stored log into memory. -/
theorem honest_construct (h : Backed e.pages) (hs : e.faults .saveSnapshot = []) :
    Honest (after construct e) ∧ (after construct e).Saved := by
  refine (wp_after (P := fun y => Honest y ∧ y.Saved)).mp ?_
  simp only [construct, restorePersistentState, wp_bind, wp_get, wp_ite, wp_modify]
  obtain ⟨ms, hms⟩ : ∃ ms, e.storage.config = some ms := h.config
  have hsome : e.blank.reload.node.snapshotConfig ≠ none := by
    show e.storage.config ≠ none
    rw [hms]
    exact Option.some_ne_none ms
  rw [if_neg hsome]
  obtain ⟨d, ms', ls, heq, -⟩ := refreshConfig_eq e.blank.reload
  rw [heq]
  refine ⟨⟨?_, (fun hl => by cases hl), hs⟩, List.prefix_rfl⟩
  exact
    { boundary := rfl
      config := h.config
      log := by
        have := h.log
        rwa [← h.boundary] at this
      snapshot_le := Nat.le_max_right _ _
      installing := fun _ hl => by cases hl }

/-- A step in which no append raises, of a node with nothing unsaved. -/
theorem Honest.step_saved (h : Honest e) (hsaved : e.Saved) (hev : ev.Consecutive)
    (happend : e.Succeeds ev .append) : Honest (e.step ev) ∧ (e.step ev).Saved := by
  by_cases hr : ev = .act .restart
  · subst hr
    exact honest_construct h.backed h.snapshots
  · obtain ⟨hb, hs, hf⟩ := (section_step hr).keeps_of_succeeds (K := (· = .append))
      (P := fun y => Backed y.pages ∧ y.Saved ∧ y.faults .saveSnapshot = [])
      (fun k hk => hk ▸ happend) ⟨h.backed, hsaved, h.snapshots⟩
      (fun b u v huv hraised hu => by
        obtain ⟨hb, hs⟩ := huv.backed hev hu.2.2 (fun _ => ⟨hu.2.1, hraised _ rfl⟩) hu.1
        exact ⟨hb, hs hu.2.1, huv.faults_nil hu.2.2⟩)
      fun _ hu => hu
    exact ⟨⟨hb, fun _ => hs, hf⟩, hs⟩

/-- A step that brings no request. -/
theorem Honest.step (h : Honest e) (hno : ∀ req, ¬ ev.Brings req) (hc : e.StoresFirst ev) :
    Honest (e.step ev) := by
  have hev : ev.Consecutive := fun req hb => absurd hb (hno req)
  by_cases hl : e.node.state = .leader ∨ (e.step ev).node.state = .leader
  · -- a leader, before or after, appends to a log that is stored
    obtain ⟨hsaved, happend⟩ : e.Saved ∧ e.Succeeds ev .append := by
      by_cases hlead : e.node.state = .leader
      · exact ⟨h.leads hlead, hc.own hlead hno⟩
      · exact hc.office hlead (hl.resolve_left hlead)
    exact (h.step_saved hsaved hev happend).1
  · -- nobody else appends
    rw [not_or] at hl
    by_cases hr : ev = .act .restart
    · subst hr
      exact (honest_construct h.backed h.snapshots).1
    rcases section_step (e := e) hr with hmoves | ⟨u, -, -, -, hmoves⟩
    · obtain ⟨hb, hs, hf⟩ := hmoves.keeps
        (P := fun y => Backed y.pages ∧ y.node.state ≠ .leader ∧ y.faults .saveSnapshot = [])
        ⟨h.backed, hl.1, h.snapshots⟩ fun x y hxy hx => by
          obtain ⟨hb, -⟩ := hxy.backed hev hx.2.2 (fun hor => hor.elim (fun hlead =>
            absurd hlead hx.2.1) fun hb => hb.elim fun req hb => absurd hb (hno req)) hx.1
          exact ⟨hb, hxy.state_ne hx.2.1, hxy.faults_nil hx.2.2⟩
      exact ⟨hb, fun hlead => absurd hlead hl.2, hf⟩
    · have := hmoves.keeps (P := fun y => y.node.state = .leader) rfl fun x y hxy hx =>
        hxy.state_eq.trans hx
      exact absurd this hl.2

end Moves

/-! ## A call that returns has not raised -/

/-- From `x` to `y` no storage call raised. -/
def Unraised (x y : Engine) : Prop :=
  ∀ k, ∃ used, x.faults k = used ++ y.faults k ∧ true ∉ used

section Returns

variable {e₀ e : Engine}

theorem Unraised.useFault (h : Unraised e₀ e) {k : StorageCall} (hr : ¬ e.raises k = true) :
    Unraised e₀ (e.useFault k) := by
  intro j
  obtain ⟨used, hused, hno⟩ := h j
  unfold Engine.raises at hr
  unfold Engine.useFault
  dsimp only
  split
  · rename_i hj
    subst hj
    cases hf : e.faults j with
    | nil => exact ⟨used, by rw [hused, hf, List.tail_nil], hno⟩
    | cons b rest =>
        refine ⟨used ++ [b], by rw [hused, hf, List.append_assoc]; rfl, ?_⟩
        rw [hf] at hr
        rw [List.mem_append, List.mem_singleton, not_or]
        exact ⟨hno, fun hb => hr (by rw [← hb]; rfl)⟩
  · exact ⟨used, hused, hno⟩

theorem unraised_storageCall (h : Unraised e₀ e) (k : StorageCall)
    (f : MemoryRaftStorage → MemoryRaftStorage) :
    wp (storageCall k f) (fun _ => Unraised e₀) (fun _ _ => True) e := by
  rw [wp_storageCall]
  split
  · trivial
  · rename_i hr
    exact h.useFault hr

theorem Unraised.refreshConfig (h : Unraised e₀ e) : Unraised e₀ e.refreshConfig := by
  obtain ⟨d, ms, ls, heq, -⟩ := refreshConfig_eq e
  rw [heq]
  exact h

theorem unraised_appendLocal (h : Unraised e₀ e) (es : List LogEntry) :
    wp (appendLocal es) (fun _ => Unraised e₀) (fun _ _ => True) e := by
  simp only [appendLocal, wp_bind, wp_modify]
  refine wp_mono (unraised_storageCall (e := e.extendLog es) h _ _) (fun _ e' h' => ?_)
    fun _ _ _ => trivial
  split
  · exact h'.refreshConfig
  · exact h'

theorem unraised_dropConflict (h : Unraised e₀ e) (es : List LogEntry) :
    wp (dropConflict es) (fun _ => Unraised e₀) (fun _ _ => True) e := by
  induction es with
  | nil => exact h
  | cons x es ih =>
      simp only [dropConflict, truncateLocal, wp_bind, wp_get, wp_ite, wp_modify, wp_pure]
      split
      · exact h
      · split
        · exact wp_mono (unraised_storageCall (e := e.cutLog x.index) h _ _)
            (fun _ _ h' => h'.refreshConfig) fun _ _ _ => trivial
        · exact ih

theorem unraised_acceptLeader (h : Unraised e₀ e) (t : Nat) (l : NodeId) (a : String) :
    wp (acceptLeader t l a) (fun _ => Unraised e₀) (fun _ _ => True) e := by
  have hdown : ∀ {e : Engine}, Unraised e₀ e → Unraised e₀ e.stepDown := fun {e} h => by
    obtain ⟨l, ls, t, hd⟩ := stepDown_eq e
    rw [hd]
    exact h
  simp only [acceptLeader, becomeFollower, persistTermAndVote, wp_bind, wp_get, wp_ite, wp_modify]
  split
  · split
    · refine wp_mono (unraised_storageCall (e := e.enterTerm t) h _ _) (fun _ e' h' => ?_)
        fun _ _ _ => trivial
      exact (hdown h' : Unraised e₀ e'.stepDown)
    · exact (hdown h : Unraised e₀ e.stepDown)
  · exact h

theorem unraised_handleAppendEntries (req : AppendEntriesRequest) :
    wp (handleAppendEntries req) (fun _ => Unraised e) (fun _ _ => True) e := by
  have h : Unraised e e := fun _ => ⟨[], rfl, List.not_mem_nil⟩
  simp only [handleAppendEntries, wp_bind, wp_get, wp_ite, wp_pure]
  split
  · exact h
  · refine wp_mono (unraised_acceptLeader h _ _ _) (fun _ e' h' => ?_) fun _ _ _ => trivial
    simp only [wp_bind, wp_get, wp_ite, wp_pure, appendFrom, mergeEntries]
    split
    · exact h'
    · split
      · exact h'
      · refine wp_mono (unraised_dropConflict h' _) (fun es e'' h'' => ?_) fun _ _ _ => trivial
        have hdone : ∀ {y : Engine} {c m}, Unraised e y → Unraised e (y.followCommit c m) :=
          fun {y c m} hy => by
            obtain ⟨k, hk, -⟩ := followCommit_eq y c m
            rw [hk]
            exact hy
        split
        · exact wp_mono (unraised_appendLocal h'' es) (fun _ _ hy => hdone hy) fun _ _ _ => trivial
        · exact hdone h''

end Returns

/-! ## Requests -/

section Requests

variable {ev : NodeEvent} {e e' : Engine} {req : AppendEntriesRequest}

/-- A request is received, whatever becomes of it, with log and storage as
they were. -/
theorem pages_acceptLeader (t : Nat) (l : NodeId) (a : String) :
    wp (acceptLeader t l a)
      (fun _ e' => e'.pages = e.pages ∧ e'.node.state = .follower ∧
        e'.faults .saveSnapshot = e.faults .saveSnapshot)
      (fun _ e' => e'.pages = e.pages ∧ e'.node.state = e.node.state ∧
        e'.faults .saveSnapshot = e.faults .saveSnapshot) e := by
  have hdown : ∀ x : Engine, x.stepDown.pages = x.pages ∧ x.stepDown.node.state = .follower ∧
      x.stepDown.faults .saveSnapshot = x.faults .saveSnapshot := fun x => by
    obtain ⟨l, ls, t, hd⟩ := stepDown_eq x
    rw [hd]
    exact ⟨rfl, rfl, rfl⟩
  simp only [acceptLeader, becomeFollower, persistTermAndVote, wp_bind, wp_get, wp_ite, wp_modify,
    wp_storageCall]
  split
  · split
    · split
      · exact ⟨rfl, rfl, rfl⟩
      · exact hdown (e.enterTerm t).saveVote
    · exact hdown e
  · rename_i hn
    simp only [not_or, Decidable.not_not] at hn
    exact ⟨rfl, hn.2, rfl⟩

/-- Of the same pages the same is stored, and a request says the same. -/
theorem saved_of_pages (h : e'.pages = e.pages) (hs : e.Saved) : e'.Saved := by
  have hs' : e.pages.Saved := hs
  rw [← h] at hs'
  exact hs'

theorem persisted_of_pages (h : e'.pages = e.pages) :
    e'.Persisted (e'.node.agreed req) ↔ e.Persisted (e.node.agreed req) :=
  iff_of_eq (congrArg (fun x => x.Persisted (x.node.agreed req)) h :
    e'.pages.Persisted (e'.pages.node.agreed req) = e.pages.Persisted (e.pages.node.agreed req))

theorem admits_of_pages (h : e'.pages = e.pages)
    (hle : (e'.node.skipCovered req).2.1 ≤ e'.node.lastLogIndex)
    (hprev : e'.node.termAt (e'.node.skipCovered req).2.1 = (e'.node.skipCovered req).2.2) :
    (e.node.skipCovered req).2.1 ≤ e.node.lastLogIndex ∧
      e.node.termAt (e.node.skipCovered req).2.1 = (e.node.skipCovered req).2.2 := by
  have hboth : (e'.pages.node.skipCovered req).2.1 ≤ e'.pages.node.lastLogIndex ∧
      e'.pages.node.termAt (e'.pages.node.skipCovered req).2.1
        = (e'.pages.node.skipCovered req).2.2 := ⟨hle, hprev⟩
  rw [h] at hboth
  exact hboth

/-- How the loop over the entries of a request ends: they are all there, or
the rest of them is to be appended, to the log as it is or once the entry in
conflict is cut off. -/
inductive Compared (e : Engine) (es : List LogEntry) : List LogEntry → Engine → Prop where
  | all : (∀ x ∈ es, e.node.termAt x.index = some x.term) → Compared e es [] e
  | missing {pre rest : List LogEntry} {y : LogEntry} : es = pre ++ y :: rest →
      (∀ x ∈ pre, e.node.termAt x.index = some x.term) → e.node.termAt y.index = none →
      Compared e es (y :: rest) e
  | conflict {pre rest : List LogEntry} {y : LogEntry} : es = pre ++ y :: rest →
      (∀ x ∈ pre, e.node.termAt x.index = some x.term) → e.node.termAt y.index ≠ none →
      e.node.termAt y.index ≠ some y.term → Compared e es (y :: rest) (e.truncated y.index)

theorem Compared.cons {x : LogEntry} {es new : List LogEntry} (h : Compared e es new e')
    (hx : e.node.termAt x.index = some x.term) : Compared e (x :: es) new e' := by
  have hcons : ∀ {pre : List LogEntry}, (∀ z ∈ pre, e.node.termAt z.index = some z.term) →
      ∀ z ∈ x :: pre, e.node.termAt z.index = some z.term := fun hpre z hz => by
    rcases List.mem_cons.mp hz with rfl | hz
    · exact hx
    · exact hpre z hz
  cases h with
  | all hall => exact .all (hcons hall)
  | missing hs hp hnone => exact .missing (by rw [hs]; rfl) (hcons hp) hnone
  | conflict hs hp hsome hne => exact .conflict (by rw [hs]; rfl) (hcons hp) hsome hne

theorem compared_dropConflict (es : List LogEntry) :
    wp (dropConflict es) (Compared e es)
      (fun _ e' => ∃ k, e' = (e.cutLog k).useFault .truncateFrom) e := by
  induction es with
  | nil => exact .all fun _ hx => absurd hx List.not_mem_nil
  | cons x es ih =>
      simp only [dropConflict, truncateLocal, wp_bind, wp_get, wp_ite, wp_modify, wp_pure,
        wp_storageCall]
      split
      · rename_i hnone
        exact .missing (List.nil_append _).symm (fun _ hz => absurd hz List.not_mem_nil) hnone
      · rename_i hsome
        split
        · rename_i hne
          split
          · exact ⟨_, rfl⟩
          · exact .conflict (List.nil_append _).symm (fun _ hz => absurd hz List.not_mem_nil) hsome hne
        · rename_i heq
          exact wp_mono ih (fun _ _ h => h.cons (Decidable.not_not.mp heq)) fun _ _ h => h

/-- Where the entries of a request differ from the log. -/
theorem agreed_of_split {n : RaftNode} {pre rest : List LogEntry} {y : LogEntry}
    (hs : (n.skipCovered req).1 = pre ++ y :: rest)
    (hp : ∀ x ∈ pre, n.termAt x.index = some x.term) (hy : n.termAt y.index ≠ some y.term) :
    n.agreed req = (n.skipCovered req).2.1 + pre.length := by
  unfold RaftNode.agreed
  rw [hs, List.takeWhile_append_of_pos fun x hx => decide_eq_true (hp x hx),
    List.takeWhile_cons_of_neg (by rwa [decide_eq_true_eq]), List.append_nil]

theorem agreed_of_all {n : RaftNode}
    (hall : ∀ x ∈ (n.skipCovered req).1, n.termAt x.index = some x.term) :
    n.agreed req = (n.skipCovered req).2.1 + (n.skipCovered req).1.length := by
  unfold RaftNode.agreed
  rw [List.takeWhile_eq_self_iff.mpr fun x hx => decide_eq_true (hall x hx)]

theorem useFault_of_nil {c k : StorageCall} (h : e.faults k = []) :
    (e.useFault c).faults k = [] := by
  rcases useFault_faults e c k with h' | h'
  · exact h'.trans h
  · rw [h', h]
    rfl

/-- The log of a follower is cut off behind an index. -/
theorem Honest.truncated (h : Honest e) (hf : e.node.state ≠ .leader) {k : Nat}
    (hk : e.node.snapshotIndex ≤ k) :
    Honest (e.truncated (k + 1)) ∧ (e.Persisted k → (e.truncated (k + 1)).Saved) := by
  obtain ⟨hb, hsaved⟩ := h.backed.truncated hk
  refine ⟨⟨hb, fun hl => ?_, ?_⟩, hsaved⟩
  · rw [truncated_node hf] at hl
    exact absurd hl hf
  · obtain ⟨d, ms, ls, heq, -⟩ := truncated_eq e (k + 1)
    rw [heq]
    exact useFault_of_nil (e := e.cutLog (k + 1)) (c := .truncateFrom) h.snapshots

/-- Entries that continue the log of a follower are appended to it. -/
theorem honest_appendLocal (h : Honest e) (hf : e.node.state ≠ .leader) {es : List LogEntry}
    (hne : es ≠ []) (hes : ContinueAt (e.node.lastLogIndex + 1) es) :
    wp (appendLocal es)
      (fun _ e' => e.Saved → Honest e' ∧ e'.Persisted (e.node.lastLogIndex + es.length))
      (fun _ => Honest) e := by
  have hfaults := useFault_of_nil (c := .append) h.snapshots
  have hdone : e.Saved → Honest (e.appended es) ∧
      (e.appended es).Persisted (e.node.lastLogIndex + es.length) := fun hs => by
    obtain ⟨hb, hs'⟩ := h.backed.appended hs hne hes
    have hnode := appended_node hf es
    refine ⟨⟨hb, fun hl => ?_, ?_⟩, hb.persisted hs' ?_⟩
    · rw [hnode] at hl
      exact absurd hl hf
    · obtain ⟨d, i, ms, ls, heq, -⟩ := appended_eq e es
      rw [heq]
      exact hfaults
    · rw [hnode]
      unfold RaftNode.lastLogIndex
      dsimp only
      rw [List.length_append, Nat.add_assoc]
  unfold Engine.appended at hdone
  dsimp only at hdone
  simp only [appendLocal, wp_bind, wp_modify, wp_storageCall]
  split
  · exact ⟨{ h.backed with }, fun hl => absurd hl hf, hfaults⟩
  · rw [wp_ite]
    split
    · rename_i hc
      rw [if_pos hc] at hdone
      exact hdone
    · rename_i hc
      rw [if_neg hc] at hdone
      exact hdone

/-- The entries of a request become part of the log. -/
theorem honest_mergeEntries (h : Honest e) (ha : Accepts ev e.node req) (hev : ev.Consecutive) :
    wp (mergeEntries (e.node.skipCovered req).1)
      (fun _ e' => e.Persisted (e.node.agreed req) → Honest e' ∧
        e'.Persisted ((e.node.skipCovered req).2.1 + (e.node.skipCovered req).1.length))
      (fun _ => Honest) e := by
  have hf : e.node.state ≠ .leader := by
    rw [ha.follower]
    exact fun hs => by cases hs
  simp only [mergeEntries, wp_bind]
  refine wp_mono (compared_dropConflict _) (fun new e' hcmp => ?_) fun _ e' hcut => ?_
  · rw [wp_ite]
    cases hcmp with
    | all hall =>
        rw [if_neg (fun hne => hne rfl)]
        intro hp
        rw [agreed_of_all hall] at hp
        exact ⟨h, hp⟩
    | @missing pre rest y hs hp hnone =>
        rw [if_pos (List.cons_ne_nil _ _)]
        have hagreed := agreed_of_split hs hp (by rw [hnone]; exact fun hc => by cases hc)
        obtain ⟨hlow, hhigh, hc⟩ := ha.index hev hs hp
        have hlast := (termAt_eq_none_iff hlow.le).mp hnone
        have hy := (continueAt_skipCovered (n := e.node) (hev req ha.brings)).1 pre.length y
          (by rw [hs]; simp)
        have hend : e.node.agreed req = e.node.lastLogIndex := by omega
        refine wp_mono (honest_appendLocal h hf (List.cons_ne_nil y rest) ?_) (fun _ e'' h'' hp' => ?_)
          fun _ _ h'' => h''
        · rwa [show e.node.lastLogIndex + 1 = y.index by omega]
        · rw [hend] at hp'
          obtain ⟨hhonest, hpersisted⟩ := h'' hp'.saved
          refine ⟨hhonest, ?_⟩
          rwa [hs, List.length_append, ← Nat.add_assoc, ← hagreed, hend]
    | @conflict pre rest y hs hp hsome hne =>
        rw [if_pos (List.cons_ne_nil _ _)]
        have hagreed := agreed_of_split hs hp hne
        obtain ⟨hlow, hhigh, hc⟩ := ha.index hev hs hp
        have hy := (continueAt_skipCovered (n := e.node) (hev req ha.brings)).1 pre.length y
          (by rw [hs]; simp)
        obtain ⟨k, hk⟩ : ∃ k, y.index = k + 1 := Nat.exists_eq_add_one.mpr (Nat.zero_lt_of_lt hlow)
        rw [hk] at hlow hhigh hc
        have hsnap := Nat.le_of_lt_succ hlow
        obtain ⟨hcut, hsaved⟩ := h.truncated hf hsnap
        have hnode := truncated_node hf (k + 1)
        have hlast : (e.truncated (k + 1)).node.lastLogIndex = k := by
          rw [hnode, RaftNode.lastLogIndex, e.node.truncateFrom_log hsnap, List.length_take]
          unfold RaftNode.lastLogIndex at hhigh
          simp only [RaftNode.truncateFrom]
          omega
        rw [hk]
        refine wp_mono (honest_appendLocal hcut ?_ (List.cons_ne_nil y rest) ?_)
          (fun _ e'' h'' hp' => ?_) fun _ _ h'' => h''
        · rw [hnode]
          exact hf
        · rwa [hlast]
        · have hend : e.node.agreed req = k := by omega
          rw [hend] at hp'
          obtain ⟨hhonest, hpersisted⟩ := h'' (hsaved hp')
          refine ⟨hhonest, ?_⟩
          rwa [hs, List.length_append, ← Nat.add_assoc, ← hagreed, hend, ← hlast]
  · obtain ⟨k, rfl⟩ := hcut
    exact ⟨{ h.backed with }, fun hl => absurd hl hf,
      useFault_of_nil (e := e.cutLog k) h.snapshots⟩

/-- A request, whatever becomes of it. Its answer acknowledges what is
stored, if what the log had of it before was. -/
theorem honest_handleAppendEntries (h : Honest e) (hb : ev.Brings req) (hev : ev.Consecutive)
    (hrun : e.running = true) :
    wp (handleAppendEntries req)
      (fun r e' => (e.Admits req → e.Persisted (e.node.agreed req)) →
        Honest e' ∧ (r.success = true → e'.Persisted r.matchIndex))
      (fun _ => Honest) e := by
  simp only [handleAppendEntries, wp_bind, wp_get, wp_ite, wp_pure]
  split
  · exact fun _ => ⟨h, fun hs => by cases hs⟩
  · rename_i hlt
    have hle := Nat.le_of_not_lt hlt
    refine wp_mono (wp_and (pages_acceptLeader req.term req.leaderId req.leaderAddress)
      (moves_acceptLeader (Moves.refl : Moves ev false e e) hle _ _)) (fun _ x h' => ?_) fun _ x h' => ?_
    · obtain ⟨⟨hp, -, hf⟩, -, hfollower, hterm⟩ := h'
      have hx : Honest x := by
        refine ⟨hp ▸ h.backed, fun hl => ?_, hf.trans h.snapshots⟩
        rw [hfollower] at hl
        cases hl
      simp only [wp_bind, wp_get, wp_ite, wp_pure, appendFrom]
      split
      · exact fun _ => ⟨hx, fun hs => by cases hs⟩
      · rename_i hprev
        split
        · exact fun _ => ⟨hx, fun hs => by cases hs⟩
        · rename_i hprevTerm
          have ha : Accepts ev x.node req :=
            ⟨hb, hterm, hfollower, Nat.le_of_not_lt hprev, Decidable.not_not.mp hprevTerm⟩
          have hadm : e.Admits req := ⟨hrun, hle, admits_of_pages hp ha.prev_le ha.prev⟩
          refine wp_mono (honest_mergeEntries hx ha hev) (fun _ y hy hstored => ?_) fun _ _ hy => hy
          obtain ⟨hhonest, hpersisted⟩ := hy ((persisted_of_pages hp).mpr (hstored hadm))
          obtain ⟨k, hk, -⟩ := followCommit_eq y req.leaderCommit
            ((x.node.skipCovered req).2.1 + (x.node.skipCovered req).1.length)
          beta_reduce
          rw [hk]
          exact ⟨⟨hhonest.backed, hhonest.leads, hhonest.snapshots⟩, fun _ => hpersisted⟩
    · obtain ⟨⟨hp, hs, hf⟩, -⟩ := h'
      refine ⟨hp ▸ h.backed, fun hl => ?_, hf.trans h.snapshots⟩
      exact saved_of_pages hp (h.leads (hs.symm.trans hl))

/-- What a request leaves behind. -/
theorem step_request {env : Envelope} {peer : NodeId} {seq : Nat}
    (hc : env.call = .appendEntries peer req seq) (hrun : e.running = true) :
    (∀ r e', (handleAppendEntries req).run e = .ok r e' →
        e.step (.receive (.call env)) = e'.send (.reply env (.appendEntries r))) ∧
      ∀ x e', (handleAppendEntries req).run e = .error x e' →
        e.step (.receive (.call env)) = e' := by
  refine ⟨fun r e' hr => ?_, fun x e' hr => ?_⟩
  · refine (wp_after (P := fun y => y = e'.send (.reply env (.appendEntries r)))).mp ?_
    simp only [NodeEvent.body, KvCache.receive, handleRpc, hc, wp_bind, wp_get, hrun, if_true]
    exact (wp_of_run_ok hr).mpr rfl
  · refine (wp_after (P := fun y => y = e')).mp ?_
    simp only [NodeEvent.body, KvCache.receive, handleRpc, hc, wp_bind, wp_get, hrun, if_true]
    exact (wp_of_run_error hr).mpr rfl

/-- A step that brings a request. -/
theorem Honest.step_request (h : Honest e) (hb : ev.Brings req) (hev : ev.Consecutive)
    (hc : e.StoresFirst ev) :
    Honest (e.step ev) ∧
      ∀ r, e.Answers ev r → r.success = true → (e.step ev).Persisted r.matchIndex := by
  obtain ⟨env, peer, seq, rfl, hcall⟩ := id hb
  by_cases hrun : e.running = true
  · have hhonest := honest_handleAppendEntries h hb hev hrun
    have hunraised := unraised_handleAppendEntries (e := e) req
    obtain ⟨hok, herror⟩ := KvCache.step_request hcall hrun
    have hanswers : ∀ r, e.Answers (.receive (.call env)) r →
        ∃ e', (handleAppendEntries req).run e = .ok r e' := by
      rintro r ⟨env', peer', req', seq', e', hev', hcall', -, hr⟩
      cases hev'
      rw [hcall] at hcall'
      cases hcall'
      exact ⟨e', hr⟩
    cases hres : (handleAppendEntries req).run e with
    | ok r e' =>
        have hstep := hok r e' hres
        have hsucceeds : ∀ k, e.Succeeds (.receive (.call env)) k := fun k => by
          unfold Engine.Succeeds
          rw [hstep]
          exact (wp_of_run_ok hres).mp hunraised k
        obtain ⟨hs, hp⟩ := (wp_of_run_ok hres).mp hhonest fun hadm => hc.request req hb hadm hsucceeds
        rw [hstep]
        refine ⟨⟨hs.backed, hs.leads, hs.snapshots⟩, fun r' hr' hsuccess => ?_⟩
        obtain ⟨e'', hres'⟩ := hanswers r' hr'
        rw [hres] at hres'
        cases hres'
        exact hp hsuccess
    | error x e' =>
        rw [herror x e' hres]
        refine ⟨(wp_of_run_error hres).mp hhonest, fun r' hr' _ => ?_⟩
        obtain ⟨e'', hres'⟩ := hanswers r' hr'
        rw [hres] at hres'
        cases hres'
  · have hstep : e.step (.receive (.call env)) = e := by
      refine (wp_after (P := fun y => y = e)).mp ?_
      simp only [NodeEvent.body, KvCache.receive, wp_bind, wp_get, if_neg hrun, wp_pure]
    rw [hstep]
    refine ⟨h, fun r hr _ => ?_⟩
    obtain ⟨-, -, -, -, -, -, -, hrun', -⟩ := hr
    exact absurd hrun' hrun

end Requests

/-! ## Runs -/

section Runs

variable {e : Engine} {ev : NodeEvent} {evs : List NodeEvent} {settings : Settings}
  {faults : StorageCall → List Bool}

/-- A new node stores the bootstrap membership, and has no entries. -/
theorem honest_boot (hf : faults .saveSnapshot = []) :
    Honest (boot settings faults) ∧ (boot settings faults).Saved := by
  obtain ⟨hk, -⟩ : Kept (boot settings faults).ledger ∧ _ := kept_boot hf
  obtain ⟨ms, hms⟩ := hk.config
  obtain ⟨hb, hload⟩ := backed_of_holds (e := (boot settings faults).pages) hk.stored.snapshotIndex
    ⟨ms, hk.stored.config.trans hms⟩ hk.stored.log hk.snapshot_le hk.installing
  have hsaved : (boot settings faults).Saved := by
    unfold Engine.Saved
    rw [show (boot settings faults).storage.load.log = _ from hload]
    exact List.prefix_rfl
  exact ⟨⟨hb, fun _ => hsaved, faults_run hf []⟩, hsaved⟩

theorem honest_step (h : Honest e) (hev : ev.Consecutive) (hc : e.StoresFirst ev) :
    Honest (e.step ev) := by
  by_cases hb : ∃ req, ev.Brings req
  · obtain ⟨req, hb⟩ := hb
    exact (h.step_request hb hev hc).1
  · exact h.step (fun req hr => hb ⟨req, hr⟩) hc

theorem honest_run (hf : faults .saveSnapshot = []) (hev : ∀ ev ∈ evs, ev.Consecutive)
    (hc : (boot settings faults).RunStoresFirst evs) : Honest ((boot settings faults).run evs) := by
  induction evs using List.reverseRecOn with
  | nil => exact (honest_boot hf).1
  | append_singleton evs ev ih =>
      have hbefore := ih (fun v hv => hev v (List.mem_append_left _ hv)) fun pre v post hs =>
        hc pre v (post ++ [ev]) (by rw [hs]; simp)
      rw [Engine.run, List.foldl_concat]
      exact honest_step hbefore (hev ev (by simp)) (hc evs ev [] rfl)

/-- What the log has of a request lies in the log. -/
theorem agreed_le {n : RaftNode} {req : AppendEntriesRequest}
    (hc : ContinueAt (req.prevLogIndex + 1) req.entries)
    (hle : (n.skipCovered req).2.1 ≤ n.lastLogIndex) : n.agreed req ≤ n.lastLogIndex := by
  obtain ⟨hc', -⟩ := continueAt_skipCovered (n := n) hc
  unfold RaftNode.agreed
  generalize (n.skipCovered req).1 = es at hc' ⊢
  have hpre := List.takeWhile_prefix (l := es) fun x => decide (n.termAt x.index = some x.term)
  rcases QuorumLog.eq_nil_or_concat
    (es.takeWhile fun x => decide (n.termAt x.index = some x.term)) with hnil | ⟨l, z, hz⟩
  · rw [hnil]
    exact hle
  · have hmem := List.mem_takeWhile_imp (p := fun x => decide (n.termAt x.index = some x.term))
      (by rw [hz]; simp : z ∈ _)
    have hlast := (RaftNode.le_of_termAt (of_decide_eq_true hmem)).2
    rw [hz] at hpre ⊢
    obtain ⟨rest, rfl⟩ := hpre
    have := hc' l.length z (by simp)
    rw [List.length_append, List.length_singleton]
    omega

/-- A run in which no append raises stores first, whichever calls of
`truncate_from` do. -/
theorem storesFirst_of_append_succeeds (hf : faults .saveSnapshot = [])
    (hev : ∀ ev ∈ evs, ev.Consecutive) (hs : (boot settings faults).RunSucceeds evs .append) :
    (boot settings faults).RunStoresFirst evs := by
  have hrun : ∀ pre post, evs = pre ++ post →
      Honest ((boot settings faults).run pre) ∧ ((boot settings faults).run pre).Saved := by
    intro pre
    induction pre using List.reverseRecOn with
    | nil => exact fun _ _ => honest_boot hf
    | append_singleton pre ev ih =>
        intro post hsplit
        rw [List.append_assoc] at hsplit
        obtain ⟨hhonest, hsaved⟩ := ih _ hsplit
        rw [Engine.run, List.foldl_concat]
        exact hhonest.step_saved hsaved (hev ev (by rw [hsplit]; simp)) (hs pre ev post hsplit)
  intro pre ev post hsplit
  obtain ⟨hhonest, hsaved⟩ := hrun pre _ hsplit
  have happend := hs pre ev post hsplit
  exact
    { request := fun req hb hadm _ => hhonest.backed.persisted hsaved
        (agreed_le (hev ev (by rw [hsplit]; simp) req hb) hadm.2.2.1)
      own := fun _ _ => happend
      office := fun _ _ => ⟨hsaved, happend⟩ }

/-- Where every step stores first, what a node acknowledges and what a leader
counts itself for is on storage. -/
theorem persisted_before_acknowledged (settings : Settings) (faults : StorageCall → List Bool)
    (hf : faults .saveSnapshot = []) (evs : List NodeEvent) (hev : ∀ ev ∈ evs, ev.Consecutive)
    (hc : (boot settings faults).RunStoresFirst evs) :
    (∀ m, ((boot settings faults).run evs).CountsItself m →
      ((boot settings faults).run evs).Persisted m) ∧
    ∀ pre ev r, evs = pre ++ [ev] → ((boot settings faults).run pre).Answers ev r →
      r.success = true → ((boot settings faults).run evs).Persisted r.matchIndex := by
  have hhonest := honest_run hf hev hc
  refine ⟨fun m hm => hhonest.backed.persisted (hhonest.leads hm.1) hm.2, ?_⟩
  rintro pre ev r rfl hanswer hsuccess
  have hbefore := honest_run hf (fun v hv => hev v (List.mem_append_left _ hv))
    fun before v after hs => hc before v (after ++ [ev]) (by rw [hs]; simp)
  obtain ⟨env, peer, req, seq, e', hcalls, hcall, -⟩ := id hanswer
  have := (hbefore.step_request ⟨env, peer, seq, hcalls, hcall⟩ (hev ev (by simp))
    (hc pre ev [] rfl)).2 r hanswer hsuccess
  rw [Engine.run, List.foldl_concat]
  exact this

/-- The first entry of a follower, as a leader of term `t` sends it. -/
def firstRequest (t : Nat) : AppendEntriesRequest where
  term := t
  leaderId := "n2"
  prevLogIndex := 0
  prevLogTerm := some 0
  entries := [{ term := t, index := 1, command := .noop, username := "" }]
  leaderCommit := 0

def firstAppend (t : Nat) : NodeEvent := .receive (.call
  { src := "n2", epoch := 1, address := "127.0.0.1:9001"
    call := .appendEntries "n1" (firstRequest t) 1 })

theorem consecutive_firstAppend (t : Nat) : (firstAppend t).Consecutive :=
  consecutive_call rfl fun j x hx => by
    cases j with
    | zero =>
        cases hx
        rfl
    | succ j => cases hx

/-- The first append raises; the second request is answered with success, and
nothing is stored. -/
theorem unsaved_entry_is_acknowledged :
    ¬ ∀ (settings : Settings) (faults : StorageCall → List Bool),
      faults .saveTermAndVote = [] → faults .saveSnapshot = [] →
      ∀ evs, (∀ ev ∈ evs, ev.Consecutive) →
        ∀ pre ev r, evs = pre ++ [ev] → ((boot settings faults).run pre).Answers ev r →
          r.success = true → ((boot settings faults).run evs).Persisted r.matchIndex := by
  intro hall
  have h := hall follower (fun k => if k = .append then [true] else []) rfl rfl
    [.act .start, firstAppend 1, firstAppend 1] (fun ev hev => by
      simp only [List.mem_cons, List.not_mem_nil, or_false] at hev
      rcases hev with rfl | rfl | rfl
      · exact consecutive_act _
      · exact consecutive_firstAppend 1
      · exact consecutive_firstAppend 1)
    [.act .start, firstAppend 1] (firstAppend 1) { term := 1, success := true, matchIndex := 1 } rfl
    ⟨_, _, _, _, _, rfl, rfl, rfl, rfl⟩ rfl
  exact absurd h.2.2 (by decide)

/-- One append and one truncation raise. -/
def twoRaises : StorageCall → List Bool
  | .append | .truncateFrom => [true]
  | _ => []

/-- The append of an entry of term 1 raises, and so does the truncation when
the leader of term 2 sends another one. It sends it again. -/
def repairedRun : List NodeEvent :=
  [.act .start, firstAppend 1, firstAppend 2, firstAppend 2]

/-- What the follower has of the entry that it is sent is nothing. -/
theorem storesFirst_firstAppend {e : Engine} {t : Nat} (hsnap : e.storage.snapshotIndex = 0)
    (hnode : e.node.snapshotIndex = 0) (hagreed : e.node.agreed (firstRequest t) = 0)
    (hlead : (e.step (firstAppend t)).node.state ≠ .leader) : e.StoresFirst (firstAppend t) where
  request req hb _ _ := by
    obtain ⟨env, peer, seq, hcalls, hcall⟩ := hb
    cases hcalls
    cases hcall
    rw [hagreed]
    exact ⟨Nat.zero_le _, hsnap.trans hnode.symm, by rw [hnode]; rfl⟩
  own _ hno := absurd ⟨_, _, _, rfl, rfl⟩ (hno (firstRequest t))
  office _ h := absurd h hlead

theorem persisted_before_acknowledged_repaired :
    ¬ ((boot follower twoRaises).run (repairedRun.take 2)).Saved ∧
    ∃ r, ((boot follower twoRaises).run (repairedRun.take 3)).Answers (firstAppend 2) r ∧
      r.success = true ∧ r.matchIndex = 1 ∧
      ((boot follower twoRaises).run repairedRun).Persisted r.matchIndex := by
  have hall := persisted_before_acknowledged follower twoRaises rfl repairedRun (fun ev hev => ?_)
    (.cons ?_ (.cons ?_ (.cons ?_ (.cons ?_ .nil))))
  · have hanswer : ((boot follower twoRaises).run (repairedRun.take 3)).Answers (firstAppend 2)
        { term := 2, success := true, matchIndex := 1 } := ⟨_, _, _, _, _, rfl, rfl, rfl, rfl⟩
    exact ⟨by decide, _, hanswer, rfl, rfl, hall.2 (repairedRun.take 3) _ _ rfl hanswer rfl⟩
  · simp only [repairedRun, List.mem_cons, List.not_mem_nil, or_false] at hev
    rcases hev with rfl | rfl | rfl | rfl
    · exact consecutive_act _
    all_goals exact consecutive_firstAppend _
  · exact
      { request := fun req hb => absurd hb (by rintro ⟨_, _, _, hcalls, -⟩; cases hcalls)
        own := fun hl => absurd hl (by decide)
        office := fun _ hl => absurd hl (by decide) }
  all_goals exact storesFirst_firstAppend rfl rfl rfl (by decide)

end Runs

end KvCache
