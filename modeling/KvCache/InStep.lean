import KvCache.Deeds
import KvCache.Delivery

/-!
# State machine and last applied index

The applier, the installation of a snapshot and the sending of one all hold
`_apply_lock`, but they give up `_state_lock` in between, while entries arrive,
commits advance and elections are held. `Machine` is the state machine behind
`apply_fn`, `snapshot_fn` and `restore_fn`; it runs beside the engine.

If the committed entries of the log are those of one agreed log, and every
snapshot that arrives is one of that log, then the state machine is the agreed
log up to `lastApplied`, and every snapshot that leaves is again one of it.
-/

namespace KvCache

open StateWp Engine

/-! ## The agreed log -/

/-- What the callbacks of the engine do. -/
structure Machine (M : Type) where
  apply : LogEntry → M → M
  snapshot : M → List UInt8
  restore : List UInt8 → M
  restore_snapshot : ∀ m, restore (snapshot m) = m

/-- Terms and entries on which the nodes agree, and the membership before the
first one. -/
structure AgreedLog where
  entry : Nat → LogEntry
  base : List Member

namespace AgreedLog

def termAt (l : AgreedLog) : Nat → Nat
  | 0 => 0
  | k + 1 => (l.entry (k + 1)).term

def configAt (l : AgreedLog) : Nat → List Member
  | 0 => l.base
  | k + 1 => (parseConfig (l.entry (k + 1)).command).getD (l.configAt k)

end AgreedLog

namespace Machine

variable {M : Type} (a : Machine M)

/-- The no-op and CONFIG entries never reach `apply_fn`. -/
def exec (x : LogEntry) (m : M) : M :=
  match x.command with
  | .write _ => a.apply x m
  | _ => m

/-- The state after the first entries of the agreed log, each applied once. -/
def stateAt (l : AgreedLog) (m₀ : M) : Nat → M
  | 0 => m₀
  | k + 1 => a.exec (l.entry (k + 1)) (stateAt l m₀ k)

/-- What a step of the engine does to the state machine. -/
def effect (e : Engine) (ev : NodeEvent) (m : M) : M :=
  match ev, e.applyLock with
  | .act (.finishApply _), .applying _ x => a.exec x m
  | .act (.finishInstall true), .installing y => a.restore y.data
  | _, _ => m

/-- Engine and state machine, one step after another. -/
def run (s : Engine × M) (evs : List NodeEvent) : Engine × M :=
  evs.foldl (fun s ev => (s.1.step ev, a.effect s.1 ev s.2)) s

theorem run_fst (s : Engine × M) (evs : List NodeEvent) : (a.run s evs).1 = s.1.run evs := by
  induction evs generalizing s with
  | nil => rfl
  | cons ev evs ih => exact ih _

theorem run_concat (s : Engine × M) (evs : List NodeEvent) (ev : NodeEvent) :
    a.run s (evs ++ [ev]) = ((a.run s evs).1.step ev, a.effect (a.run s evs).1 ev (a.run s evs).2) :=
  List.foldl_concat _ _ _ _

/-- The transfer carries the state at its index, and the term and membership
there. -/
structure Labelled (l : AgreedLog) (m₀ : M) (t : Transfer) : Prop where
  file : t.file = a.snapshot (a.stateAt l m₀ t.index)
  lastTerm : t.lastTerm = l.termAt t.index
  config : t.config = l.configAt t.index

theorem consistent_labelled (l : AgreedLog) (m₀ : M) : Consistent (a.Labelled l m₀) where
  goesOn _ _ _ h := ⟨h.file, h.lastTerm, h.config⟩
  equal t t' h h' hi := by rw [h.file, h'.file, hi]

end Machine

/-- State machine safety at this node: its log holds the agreed entries from the
snapshot to the commit index. -/
def Engine.Agrees (e : Engine) (l : AgreedLog) : Prop :=
  ∀ k, e.node.snapshotIndex < k → k ≤ e.node.commitIndex → e.node.entryAt k = some (l.entry k)

/-- The boundary of the log is at an agreed entry. -/
structure Engine.Bounded (e : Engine) (l : AgreedLog) : Prop where
  term : e.node.snapshotTerm = l.termAt e.node.snapshotIndex
  config : e.node.snapshotConfig = some (l.configAt e.node.snapshotIndex)

section Log

variable {e : Engine} {l : AgreedLog} {k : Nat}

theorem Engine.Agrees.termAt (h : e.Agrees l) (hb : e.Bounded l) (hs : e.node.snapshotIndex ≤ k)
    (hc : k ≤ e.node.commitIndex) : e.node.termAt k = some (l.termAt k) := by
  rcases Nat.eq_or_lt_of_le hs with rfl | hlt
  · unfold RaftNode.termAt
    rw [if_pos rfl, hb.term]
  · have hx := h k hlt hc
    unfold RaftNode.entryAt at hx
    unfold RaftNode.termAt
    split at hx
    · cases hx
    · rename_i hn
      rw [not_or, Nat.not_le, Nat.not_lt] at hn
      rw [if_neg (by omega), if_neg (by omega), hx]
      cases k with
      | zero => exact absurd hlt (Nat.not_lt_zero _)
      | succ k => rfl

/-- The membership of an applied index, as the log tells it. -/
theorem Engine.Agrees.configAt (h : e.Agrees l) (hb : e.Bounded l) (hi : e.node.Indexed)
    (hs : e.node.snapshotIndex ≤ k) (hc : k ≤ e.node.commitIndex) :
    e.node.configAt k = some (l.configAt k) := by
  induction k, hs using Nat.le_induction with
  | base =>
      rw [configAt_eq_take hi, Nat.sub_self, List.take_zero, List.reverse_nil, List.findSome?_nil,
        Option.none_or, hb.config]
  | succ k hs ih =>
      have hx := h (k + 1) (Nat.lt_succ_of_le hs) hc
      have hprev := ih (Nat.le_of_succ_le hc)
      unfold RaftNode.entryAt at hx
      split at hx
      · cases hx
      · rename_i hn
        rw [show k + 1 - e.node.snapshotIndex - 1 = k - e.node.snapshotIndex by omega] at hx
        rw [configAt_eq_take hi] at hprev ⊢
        rw [show k + 1 - e.node.snapshotIndex = k - e.node.snapshotIndex + 1 by omega,
          List.take_add_one, hx, Option.toList_some, List.reverse_append, List.reverse_singleton,
          List.singleton_append, List.findSome?_cons]
        unfold AgreedLog.configAt
        cases hp : parseConfig (l.entry (k + 1)).command with
        | none => exact hprev
        | some ms => rfl

end Log

/-! ## One step -/

/-- What the applier goes by. -/
def Sight.applied (s : Sight) : ApplyLock × Nat × Nat × Nat × Option (List Member) :=
  (s.lock, s.lastApplied, s.snapshotIndex, s.snapshotTerm, s.snapshotConfig)

section Steps

variable {ev : NodeEvent} {e x y : Engine} {b : Bool}

/-- Only the threads that hold the apply lock touch it. -/
theorem applied_step (hr : ev ≠ .act .restart) (hw : ¬ ev.Works) :
    (e.step ev).sight.applied = e.sight.applied := by
  refine (deeds_step hr).keeps (P := fun x => x.sight.applied = e.sight.applied) rfl
    fun x y hxy hx => ?_
  have hkeep : y.sight.applied = x.sight.applied → y.sight.applied = e.sight.applied :=
    fun h => h.trans hx
  cases hxy with
  | rest hs => exact hkeep (by rw [hs])
  | send _ hs => exact hkeep (by rw [hs]; rfl)
  | power hs => exact hkeep (by rw [hs]; rfl)
  | bump hs => exact hkeep (by rw [hs]; rfl)
  | adoptTerm _ _ _ _ hs => exact hkeep (by rw [hs]; rfl)
  | adoptTermFails _ _ _ _ hs => exact hkeep (by rw [hs]; rfl)
  | stepDown hs => exact hkeep (by rw [hs]; rfl)
  | vote _ _ hs => exact hkeep (by rw [hs]; rfl)
  | voteFails _ _ hs => exact hkeep (by rw [hs]; rfl)
  | openRound _ _ _ _ hs => exact hkeep (by rw [hs]; rfl)
  | addGrant _ _ _ hs => exact hkeep (by rw [hs]; rfl)
  | standFails _ _ _ hs => exact hkeep (by rw [hs]; rfl)
  | stand _ _ _ _ _ hs => exact hkeep (by rw [hs]; rfl)
  | win _ _ _ _ hs => exact hkeep (by rw [hs]; rfl)
  | addVote _ _ _ _ hs => exact hkeep (by rw [hs]; rfl)
  | office _ _ _ _ _ _ hs => exact hkeep (by rw [hs]; rfl)
  | work hw' => exact absurd hw' hw

/-- Neither the commit index nor the last applied index goes back. -/
def Onward (x y : Engine) : Prop :=
  x.node.commitIndex ≤ y.node.commitIndex ∧ x.node.lastApplied ≤ y.node.lastApplied

theorem Move.onward (hm : Move ev b x y) : Onward x y := by
  have hsame : Onward x x := ⟨Nat.le_refl _, Nat.le_refl _⟩
  have hcommit : ∀ {k : Nat}, x.node.commitIndex ≤ k →
      x.node.commitIndex ≤ k ∧ x.node.lastApplied ≤ x.node.lastApplied :=
    fun h => ⟨h, Nat.le_refl _⟩
  cases hm with
  | idle h =>
      exact ⟨Nat.le_of_eq (congrArg (·.node.commitIndex) h :).symm,
        Nat.le_of_eq (congrArg (·.node.lastApplied) h :).symm⟩
  | adoptTerm =>
      obtain ⟨l, ls, t, hd⟩ := stepDown_eq (x.enterTerm _).saveVote
      rw [hd]
      exact hsame
  | stepDown =>
      obtain ⟨l, ls, t, hd⟩ := stepDown_eq x
      rw [hd]
      exact hsame
  | noop =>
      obtain ⟨d, i, ms, ls, h, -⟩ := appended_eq x [x.newEntry .noop "" ""]
      rw [h]
      exact hsame
  | propose timeout =>
      obtain ⟨d, i, ms, ls, c, h, -, hk⟩ := proposed_eq x _ timeout
      rw [h]
      rcases hk with rfl | ⟨-, hscan⟩
      · exact hsame
      · obtain ⟨d', i', ms', ls', h', -⟩ := appended_eq x [_]
        have hlt := (scanCommit_spec hscan).1
        rw [h'] at hlt
        exact hcommit (Nat.le_of_lt hlt)
  | receive =>
      obtain ⟨d, i, ms, ls, h, -⟩ := appended_eq x _
      rw [h]
      exact hsame
  | truncate =>
      obtain ⟨d, ms, ls, h, -⟩ := truncated_eq x _
      rw [h]
      exact hsame
  | advanceCommit =>
      obtain ⟨c, h, hk⟩ := advanceCommitIndex_eq x
      rw [h]
      rcases hk with rfl | ⟨-, hscan⟩
      · exact hsame
      · exact hcommit (Nat.le_of_lt (scanCommit_spec hscan).1)
  | followCommit =>
      obtain ⟨c, h, hle, -⟩ := followCommit_eq x _ _
      rw [h]
      exact hcommit hle
  | startReplicator =>
      obtain ⟨d, h, -⟩ := startReplicator_eq x _
      rw [h]
      exact hsame
  | install =>
      obtain ⟨d, ms, ls, h, -⟩ := installed_eq (x.setLock .free) _
      obtain ⟨st, fs, hu⟩ := uprooted_eq (x.setLock .free) _
      rw [h, hu]
      exact ⟨Nat.le_max_left _ _, Nat.le_max_left _ _⟩
  | installFails ha hi h =>
      rcases h with ⟨rfl, -⟩ | ⟨rfl, -⟩
      · exact hsame
      · obtain ⟨st, fs, hu⟩ := uprooted_eq (x.setLock .free) _
        rw [hu]
        exact ⟨Nat.le_max_left _ _, Nat.le_max_left _ _⟩
  | noteApplied => exact ⟨Nat.le_refl _, Nat.le_max_left _ _⟩
  | _ => exact hsame

theorem onward_step (hr : ev ≠ .act .restart) : Onward e (e.step ev) :=
  (section_step hr).keeps (P := Onward e) ⟨Nat.le_refl _, Nat.le_refl _⟩
    (fun _ _ _ hm hx => ⟨Nat.le_trans hx.1 hm.onward.1, Nat.le_trans hx.2 hm.onward.2⟩)
    fun _ _ _ hx => hx

end Steps

/-! ## Engine and state machine -/

namespace Machine

variable {M : Type} {a : Machine M} {l : AgreedLog} {m₀ m : M} {e e' : Engine} {ev : NodeEvent}

/-- The state machine is the agreed log up to `lastApplied`, and who holds the
apply lock is about to go on from there. -/
structure InStep (a : Machine M) (l : AgreedLog) (m₀ : M) (e : Engine) (m : M) : Prop where
  machine : m = a.stateAt l m₀ e.node.lastApplied
  applying : ∀ k x, e.applyLock = .applying k x →
    x = l.entry k ∧ k = e.node.lastApplied + 1 ∧ k ≤ e.node.commitIndex
  installing : ∀ y, e.applyLock = .installing y →
    e.node.lastApplied < y.request.lastIncludedIndex
  bounded : e.Bounded l
  snapshot_le : e.node.snapshotIndex ≤ e.node.lastApplied
  applied_le : e.node.lastApplied ≤ e.node.commitIndex

/-- Only the commit index moved. -/
theorem InStep.of_applied (h : a.InStep l m₀ e m) (hs : e'.sight.applied = e.sight.applied)
    (hc : e.node.commitIndex ≤ e'.node.commitIndex) : a.InStep l m₀ e' m := by
  have hlock : e'.applyLock = e.applyLock := congrArg (·.1) hs
  have happlied : e'.node.lastApplied = e.node.lastApplied := congrArg (·.2.1) hs
  have hindex : e'.node.snapshotIndex = e.node.snapshotIndex := congrArg (·.2.2.1) hs
  have hterm : e'.node.snapshotTerm = e.node.snapshotTerm := congrArg (·.2.2.2.1) hs
  have hconfig : e'.node.snapshotConfig = e.node.snapshotConfig := congrArg (·.2.2.2.2) hs
  refine ⟨by rw [happlied]; exact h.machine, fun k x hl => ?_, fun y hl => ?_, ⟨?_, ?_⟩, ?_, ?_⟩
  · obtain ⟨hx, hk, hle⟩ := h.applying k x (hlock ▸ hl)
    exact ⟨hx, by rw [happlied]; exact hk, Nat.le_trans hle hc⟩
  · rw [happlied]
    exact h.installing y (hlock ▸ hl)
  · rw [hterm, hindex]
    exact h.bounded.term
  · rw [hconfig, hindex]
    exact h.bounded.config
  · rw [hindex, happlied]
    exact h.snapshot_le
  · rw [happlied]
    exact Nat.le_trans h.applied_le hc

/-- The lock is free again. -/
theorem InStep.release (h : a.InStep l m₀ e m) : a.InStep l m₀ (e.setLock .free) m :=
  ⟨h.machine, (fun _ _ hl => by cases hl), (fun _ hl => by cases hl),
    ⟨h.bounded.term, h.bounded.config⟩, h.snapshot_le, h.applied_le⟩

theorem InStep.beginApply (h : a.InStep l m₀ e m) (ha : e.Agrees l) :
    a.InStep l m₀ (e.step (.act .beginApply)) m := by
  refine (wp_after (P := fun e' : Engine => a.InStep l m₀ e' m)).mp ?_
  simp only [NodeEvent.body, Action.body, KvCache.beginApply, wp_bind, wp_get]
  split
  · rename_i x _ hx
    simp only [wp_ite, wp_modify, wp_pure]
    split
    · rename_i hrun
      refine ⟨h.machine, fun k x' hl => ?_, (fun _ hl => by cases hl),
    ⟨h.bounded.term, h.bounded.config⟩, h.snapshot_le, h.applied_le⟩
      cases hl
      have hagreed := ha _ (Nat.lt_succ_of_le h.snapshot_le) hrun.2
      rw [hx] at hagreed
      exact ⟨Option.some.inj hagreed, rfl, hrun.2⟩
    · exact h
  · exact h

theorem InStep.stopApply (h : a.InStep l m₀ e m) :
    a.InStep l m₀ (e.step (.act .stopApply)) m := by
  refine (wp_after (P := fun e' : Engine => a.InStep l m₀ e' m)).mp ?_
  simp only [NodeEvent.body, Action.body, KvCache.stopApply, wp_bind, wp_get]
  split
  · simp only [wp_ite, wp_modify, wp_pure]
    split
    · exact h.release
    · exact h
  · exact h

theorem InStep.beginInstall (h : a.InStep l m₀ e m) (k : Nat) :
    a.InStep l m₀ (e.step (.act (.beginInstall k))) m := by
  refine (wp_after (P := fun e' : Engine => a.InStep l m₀ e' m)).mp ?_
  simp only [NodeEvent.body, Action.body, KvCache.beginInstall, wp_bind, wp_get]
  split
  · simp only [wp_bind, wp_ite, wp_modify]
    split
    · exact h.of_applied rfl (Nat.le_refl _)
    · rename_i hlt
      refine ⟨h.machine, (fun _ _ hl => by cases hl), fun y hl => ?_,
        ⟨h.bounded.term, h.bounded.config⟩, h.snapshot_le, h.applied_le⟩
      cases hl
      exact Nat.lt_of_not_le hlt
  · exact h

/-- The log is folded up to the last applied entry. -/
theorem InStep.maybeSnapshot (h : a.InStep l m₀ e m) (ha : e.Agrees l) (hi : e.node.Indexed)
    (threshold : Nat) :
    wp (KvCache.maybeSnapshot threshold) (fun _ e' => a.InStep l m₀ e' m)
      (fun _ e' => a.InStep l m₀ e' m) e := by
  have hfolded : a.InStep l m₀ e.folded m := by
    have hterm := ha.termAt h.bounded h.snapshot_le h.applied_le
    have hconfig := ha.configAt h.bounded hi h.snapshot_le h.applied_le
    refine ⟨h.machine, h.applying, h.installing, ⟨?_, ?_⟩, Nat.le_refl _, h.applied_le⟩
    · change (e.node.termAt e.node.lastApplied).getD 0 = _
      rw [hterm]
      rfl
    · change (e.node.configAt e.node.lastApplied).or _ = _
      rw [hconfig]
      rfl
  simp only [KvCache.maybeSnapshot, wp_bind, wp_get, wp_ite, wp_pure, wp_modify, wp_storageCall]
  split
  · exact h
  · split
    · exact hfolded.of_applied rfl (Nat.le_refl _)
    · exact hfolded.of_applied rfl (Nat.le_refl _)

theorem InStep.stepDown (h : a.InStep l m₀ e m) : a.InStep l m₀ e.stepDown m := by
  obtain ⟨li, ls, t, hd⟩ := stepDown_eq e
  rw [hd]
  exact h.of_applied rfl (Nat.le_refl _)

theorem log_stepDown (ha : e.Agrees l) (hi : e.node.Indexed) :
    e.stepDown.Agrees l ∧ e.stepDown.node.Indexed := by
  obtain ⟨li, ls, t, hd⟩ := stepDown_eq e
  rw [hd]
  exact ⟨ha, hi⟩

theorem InStep.finishApply (h : a.InStep l m₀ e m) (ha : e.Agrees l) (hi : e.node.Indexed)
    (result : Result) : a.InStep l m₀ (e.step (.act (.finishApply result)))
      (a.effect e (.act (.finishApply result)) m) := by
  refine (wp_after (P := fun e' : Engine =>
    a.InStep l m₀ e' (a.effect e (.act (.finishApply result)) m))).mp ?_
  simp only [NodeEvent.body, Action.body, KvCache.finishApply, wp_bind, wp_get, Machine.effect]
  cases hl : e.applyLock with
  | free => exact h
  | installing y => exact h
  | applying k x =>
      obtain ⟨rfl, rfl, hle⟩ := h.applying k x hl
      have hnoted : a.InStep l m₀ (e.noteApplied (e.node.lastApplied + 1)
          (l.entry (e.node.lastApplied + 1)).term
          ((l.entry (e.node.lastApplied + 1)).command.applied result))
          (a.exec (l.entry (e.node.lastApplied + 1)) m) := by
        have hmax : max e.node.lastApplied (e.node.lastApplied + 1) = e.node.lastApplied + 1 :=
          Nat.max_eq_right (Nat.le_succ _)
        refine ⟨?_, (fun _ _ hl => by cases hl), (fun _ hl => by cases hl),
          ⟨h.bounded.term, h.bounded.config⟩, Nat.le_trans h.snapshot_le (Nat.le_max_left _ _), ?_⟩
        · change _ = a.stateAt l m₀ (max e.node.lastApplied (e.node.lastApplied + 1))
          rw [hmax, h.machine]
          rfl
        · change max e.node.lastApplied (e.node.lastApplied + 1) ≤ e.node.commitIndex
          rw [hmax]
          exact hle
      have hagrees : (e.noteApplied (e.node.lastApplied + 1)
          (l.entry (e.node.lastApplied + 1)).term
          ((l.entry (e.node.lastApplied + 1)).command.applied result)).Agrees l := ha
      simp only [wp_bind, wp_get, wp_ite, wp_modify]
      split
      · -- a leader that is no member any more
        simp only [becomeFollower, wp_bind, wp_get, wp_ite, wp_modify]
        rw [if_neg (Nat.lt_irrefl _)]
        obtain ⟨ha', hi'⟩ := log_stepDown hagrees hi
        exact hnoted.stepDown.maybeSnapshot ha' hi' _
      · exact hnoted.maybeSnapshot hagrees hi _

/-- The received state takes the place of the machine's, and its index that of
the last applied entry. -/
theorem InStep.adoptSnapshot (h : a.InStep l m₀ e m) {y : Install}
    (hl : e.applyLock = .installing y) (hr : Received (a.Labelled l m₀) e) :
    a.InStep l m₀ ((e.setLock .free).adoptSnapshot y.request) (a.restore y.data) := by
  obtain ⟨t, hlabel, -, hchunk, hdata⟩ := hr.lock y hl
  have hlt := h.installing y hl
  have hmax : max e.node.lastApplied y.request.lastIncludedIndex = y.request.lastIncludedIndex :=
    Nat.max_eq_right (Nat.le_of_lt hlt)
  refine ⟨?_, (fun _ _ hl => by cases hl), (fun _ hl => by cases hl), ⟨?_, ?_⟩, Nat.le_max_right _ _, ?_⟩
  · change _ = a.stateAt l m₀ (max e.node.lastApplied y.request.lastIncludedIndex)
    rw [hmax, hdata, hlabel.file, a.restore_snapshot, hchunk.index]
  · change y.request.lastIncludedTerm = l.termAt y.request.lastIncludedIndex
    rw [hchunk.lastTerm, hlabel.lastTerm, hchunk.index]
  · change (some (y.request.config.getD [])).or (e.node.configAt y.request.lastIncludedIndex) = some (l.configAt y.request.lastIncludedIndex)
    rw [hchunk.config, hchunk.index, ← hlabel.config]
    rfl
  · change max e.node.lastApplied y.request.lastIncludedIndex ≤
      max e.node.commitIndex y.request.lastIncludedIndex
    exact sup_le_sup_right h.applied_le _

theorem InStep.finishInstall (h : a.InStep l m₀ e m) (hf : ∀ k, e.faults k = [])
    (hr : Received (a.Labelled l m₀) e) : a.InStep l m₀ (e.step (.act (.finishInstall true)))
      (a.effect e (.act (.finishInstall true)) m) := by
  refine (wp_after (P := fun e' : Engine =>
    a.InStep l m₀ e' (a.effect e (.act (.finishInstall true)) m))).mp ?_
  simp only [NodeEvent.body, Action.body, KvCache.finishInstall, wp_bind, wp_get, Machine.effect]
  cases hl : e.applyLock with
  | free => exact h
  | applying k x => exact h
  | installing y =>
      have hadopt := h.adoptSnapshot hl hr
      have hdone : ∀ e' : Engine,
          e'.sight.applied = ((e.setLock .free).adoptSnapshot y.request).sight.applied →
          e'.node.commitIndex = ((e.setLock .free).adoptSnapshot y.request).node.commitIndex →
          a.InStep l m₀ (e'.refreshConfig.replyInstall y) (a.restore y.data) := fun e' hs hc => by
        obtain ⟨d, ms, ls, hd, -⟩ := refreshConfig_eq e'
        refine hadopt.of_applied ?_ ?_
        · rw [← hs, hd]
          rfl
        · rw [← hc, hd]
          exact Nat.le_refl _
      have hno : ∀ (e' : Engine) (k : StorageCall), e'.faults k = [] → ¬ e'.raises k = true := by
        intro e' k hk
        simp [Engine.raises, hk]
      simp only [wp_bind, wp_ite, wp_modify, installSnapshot, wp_get, wp_storageCall]
      rw [if_pos trivial]
      split
      · split
        · rename_i hraise
          exact absurd hraise (hno _ _ (hf _))
        · split
          · rename_i hraise
            exact absurd hraise (hno _ _ (hf .saveSnapshot))
          · exact hdone _ rfl rfl
      · split
        · rename_i hraise
          exact absurd hraise (hno _ _ (hf _))
        · exact hdone _ rfl rfl

theorem effect_idle (hw : ¬ ev.Works) : a.effect e ev m = m := by
  unfold Machine.effect
  split
  · exact absurd (Or.inr (Or.inl ⟨_, rfl⟩)) hw
  · exact absurd (Or.inr (Or.inr (Or.inr (Or.inr (Or.inl ⟨true, rfl⟩))))) hw
  · rfl

/-- One step of any thread, while the committed entries are the agreed ones. -/
theorem InStep.step (h : a.InStep l m₀ e m) (hr : ev ≠ .act .restart)
    (hf : ev ≠ .act (.finishInstall false)) (hs : ∀ k, e.faults k = []) (ha : e.Agrees l)
    (hi : e.node.Indexed) (hc : Received (a.Labelled l m₀) e) :
    a.InStep l m₀ (e.step ev) (a.effect e ev m) := by
  by_cases hw : ev.Works
  · rcases hw with rfl | ⟨result, rfl⟩ | rfl | ⟨k, rfl⟩ | ⟨restored, rfl⟩ | ⟨threshold, rfl⟩
    · exact h.beginApply ha
    · exact h.finishApply ha hi result
    · exact h.stopApply
    · exact h.beginInstall k
    · cases restored with
      | false => exact absurd rfl hf
      | true => exact h.finishInstall hs hc
    · exact (wp_after (P := fun e' : Engine => a.InStep l m₀ e' m)).mp (h.maybeSnapshot ha hi threshold)
  · rw [effect_idle hw]
    exact h.of_applied (applied_step hr hw) (onward_step hr).1

/-- A new node has applied nothing, and the state machine is empty. -/
theorem inStep_boot (settings : Settings) (hb : l.base = settings.bootstrap) :
    a.InStep l m₀ (boot settings fun _ => []) m₀ := by
  refine (wp_after (P := fun e : Engine => a.InStep l m₀ e m₀)).mp ?_
  have hrefresh : ∀ e' : Engine, a.InStep l m₀ e' m₀ → a.InStep l m₀ e'.refreshConfig.markUp m₀ :=
    fun e' h => by
      obtain ⟨d, ms, ls, hd, -⟩ := refreshConfig_eq e'
      rw [hd]
      exact h.of_applied rfl (Nat.le_refl _)
  have hfirst : ∀ e' : Engine, e'.sight.applied = (.free, 0, 0, 0, some settings.bootstrap) →
      a.InStep l m₀ e' m₀ := fun e' hs => by
    have hlock : e'.applyLock = .free := congrArg (·.1) hs
    have happlied : e'.node.lastApplied = 0 := congrArg (·.2.1) hs
    have hindex : e'.node.snapshotIndex = 0 := congrArg (·.2.2.1) hs
    have hterm : e'.node.snapshotTerm = 0 := congrArg (·.2.2.2.1) hs
    have hconfig : e'.node.snapshotConfig = some settings.bootstrap := congrArg (·.2.2.2.2) hs
    refine ⟨by rw [happlied]; rfl, fun k x hl => ?_, fun y hl => ?_, ⟨?_, ?_⟩, ?_, ?_⟩
    · rw [hlock] at hl
      cases hl
    · rw [hlock] at hl
      cases hl
    · rw [hterm, hindex]
      rfl
    · rw [hconfig, hindex, ← hb]
      rfl
    · rw [hindex]
      exact Nat.zero_le _
    · rw [happlied]
      exact Nat.zero_le _
  simp only [construct, restorePersistentState, wp_bind, wp_get, wp_ite, wp_modify, wp_storageCall]
  split
  · split
    · exact hfirst _ rfl
    · exact hrefresh _ (hfirst _ rfl)
  · rename_i hnone
    exact absurd rfl hnone

/-! ## Every run -/

/-- A run of one node, without a crash: the storage and the callbacks succeed,
requests carry consecutive entries, snapshots that arrive are of the agreed log,
and so are the committed entries. -/
structure Orderly (a : Machine M) (l : AgreedLog) (m₀ : M) (settings : Settings)
    (evs : List NodeEvent) : Prop where
  base : l.base = settings.bootstrap
  alive : .act .restart ∉ evs
  restores : .act (.finishInstall false) ∉ evs
  consecutive : ∀ ev ∈ evs, ev.Consecutive
  chunks : ∀ p, .receive p ∈ evs → p.Chunked (a.Labelled l m₀)
  dumps : ∀ pre k file post, evs = pre ++ .act (.writeSnapshot k file) :: post →
    file = a.snapshot (a.run (boot settings fun _ => [], m₀) pre).2
  agrees : ∀ pre post, evs = pre ++ post → ((boot settings fun _ => []).run pre).Agrees l

theorem Orderly.init {settings : Settings} {evs : List NodeEvent}
    (h : Orderly a l m₀ settings (evs ++ [ev])) : Orderly a l m₀ settings evs where
  base := h.base
  alive hin := h.alive (List.mem_append_left _ hin)
  restores hin := h.restores (List.mem_append_left _ hin)
  consecutive v hin := h.consecutive v (List.mem_append_left _ hin)
  chunks p hin := h.chunks p (List.mem_append_left _ hin)
  dumps pre k file post hsplit := h.dumps pre k file (post ++ [ev]) (by rw [hsplit]; simp)
  agrees pre post hsplit := h.agrees pre (post ++ [ev]) (by rw [hsplit]; simp)

/-- What a leader writes is the state at the index it puts on it. -/
theorem InStep.writes (h : a.InStep l m₀ e m) (ha : e.Agrees l) (hi : e.node.Indexed) {t : Transfer}
    (hw : e.Writes ev t) (hfile : t.file = a.snapshot m) : a.Labelled l m₀ t := by
  obtain ⟨k, peer, address, term, seq, offset, -, -, -, -, -, heq⟩ := hw
  have hindex : t.index = e.node.lastApplied := congrArg Transfer.index heq
  refine ⟨?_, ?_, ?_⟩
  · rw [hfile, hindex, h.machine]
  · rw [congrArg Transfer.lastTerm heq, hindex]
    change (e.node.termAt e.node.lastApplied).getD 0 = _
    rw [ha.termAt h.bounded h.snapshot_le h.applied_le]
    rfl
  · rw [congrArg Transfer.config heq, hindex]
    change (e.node.configAt e.node.lastApplied).getD [] = _
    rw [ha.configAt h.bounded hi h.snapshot_le h.applied_le]
    rfl

theorem inStep_run {settings : Settings} {evs : List NodeEvent} (h : Orderly a l m₀ settings evs) :
    a.InStep l m₀ (a.run (boot settings fun _ => [], m₀) evs).1
        (a.run (boot settings fun _ => [], m₀) evs).2 ∧
      Relays (a.Labelled l m₀) ((boot settings fun _ => []).run evs) := by
  induction evs using List.reverseRecOn with
  | nil => exact ⟨inStep_boot settings h.base,
      relays_construct { settings := settings, faults := fun _ => [] }⟩
  | append_singleton evs ev ih =>
      obtain ⟨hin, hrelays⟩ := ih h.init
      have hrun : (a.run (boot settings fun _ => [], m₀) evs).1 = (boot settings fun _ => []).run evs :=
        a.run_fst _ _
      rw [hrun] at hin
      have ha := h.agrees evs [ev] rfl
      have hi : ((boot settings fun _ => []).run evs).node.Indexed :=
        (kept_faultless settings h.init.consecutive).1.indexed
      have hr : ev ≠ .act .restart := fun heq => h.alive (by rw [heq]; simp)
      have hf : ev ≠ .act (.finishInstall false) := fun heq => h.restores (by rw [heq]; simp)
      rw [a.run_concat, hrun]
      refine ⟨hin.step hr hf (fun k => faults_run rfl evs) ha hi hrelays.received, ?_⟩
      rw [Engine.run, List.foldl_concat]
      refine relays_step (a.consistent_labelled l m₀) (fun p hp => h.chunks p (by rw [hp]; simp))
        (fun t ht => ?_) hrelays
      refine hin.writes ha hi ht ?_
      obtain ⟨k, -, -, -, -, -, hev, -⟩ := ht
      exact h.dumps evs k t.file [] (by rw [hev])

end Machine

/-- In every such run: while the apply lock is free the state machine is the
agreed log up to `lastApplied`, which never goes back and lies between the
snapshot boundary and the commit index; and every chunk of a snapshot that is
sent, and every snapshot about to be sent, carries the state, the term and the
membership at its index. -/
theorem machine_in_step {M : Type} (a : Machine M) (l : AgreedLog) (m₀ : M) (settings : Settings)
    (evs : List NodeEvent) (h : a.Orderly l m₀ settings evs) :
    let e := (a.run (boot settings fun _ => [], m₀) evs).1
    (e.applyLock = .free →
      (a.run (boot settings fun _ => [], m₀) evs).2 = a.stateAt l m₀ e.node.lastApplied) ∧
    (e.node.snapshotIndex ≤ e.node.lastApplied ∧ e.node.lastApplied ≤ e.node.commitIndex) ∧
    (∀ pre post, evs = pre ++ post →
      (a.run (boot settings fun _ => [], m₀) pre).1.node.lastApplied ≤ e.node.lastApplied) ∧
    (∀ p ∈ e.outbox, p.Chunked (a.Labelled l m₀)) ∧
    ∀ t, .snapshot t ∈ e.outgoing → a.Labelled l m₀ t := by
  obtain ⟨hin, hrelays⟩ := Machine.inStep_run h
  have hrun : (a.run (boot settings fun _ => [], m₀) evs).1 = (boot settings fun _ => []).run evs :=
    a.run_fst _ _
  rw [← hrun] at hrelays
  refine ⟨fun _ => hin.machine, ⟨hin.snapshot_le, hin.applied_le⟩, ?_, hrelays.sends.outbox,
    hrelays.sends.outgoing⟩
  intro pre post hsplit
  rw [a.run_fst, a.run_fst]
  dsimp only
  subst hsplit
  clear hin hrelays hrun
  induction post using List.reverseRecOn with
  | nil =>
      rw [List.append_nil]
  | append_singleton post ev ih =>
      rw [← List.append_assoc] at h ⊢
      refine Nat.le_trans (ih h.init) ?_
      rw [Engine.run, Engine.run, List.foldl_concat]
      exact (onward_step fun heq => h.alive (by rw [heq]; simp)).2

/-! ### A node that takes over -/

/-- The state machine notes the term of every write. -/
def termNotes : Machine (List UInt8) where
  apply x m := m ++ [UInt8.ofNat x.term]
  snapshot m := m
  restore m := m
  restore_snapshot _ := rfl

def heir : Settings where
  nodeId := "n1"
  raftAddress := "a1"
  bootstrap := [⟨"n1", "a1", ""⟩, ⟨"n2", "a2", ""⟩]

def twoWrites : AgreedLog where
  entry
    | 1 => { term := 1, index := 1, command := .noop, username := "" }
    | 2 => { term := 1, index := 2, command := .write "SET k v", username := "u" }
    | _ => { term := 1, index := 3, command := .write "SET k w", username := "u" }
  base := heir.bootstrap

/-- The leader of term 1 sends its state after two entries. -/
def firstTwo : Transfer where
  peer := "n1"
  address := "a1"
  term := 1
  index := 2
  lastTerm := 1
  config := heir.bootstrap
  file := [1]

def firstTwoChunk : InstallSnapshotRequest where
  term := 1
  leaderId := "n2"
  lastIncludedIndex := 2
  lastIncludedTerm := 1
  offset := 0
  data := [1]
  done := true
  config := some heir.bootstrap

/-- Then the third entry, which is committed. -/
def thirdEntry : AppendEntriesRequest where
  term := 1
  leaderId := "n2"
  prevLogIndex := 2
  prevLogTerm := some 1
  entries := [twoWrites.entry 3]
  leaderCommit := 3

/-- What the node asks for when it is told to take over. -/
def heirsRequest : RequestVoteRequest where
  term := 2
  candidateId := "n1"
  lastLogIndex := 3
  lastLogTerm := 1
  transfer := true

/-- The no-op of term 2. -/
def heirsNoop : AppendEntriesRequest where
  term := 2
  leaderId := "n1"
  prevLogIndex := 3
  prevLogTerm := some 1
  entries := [{ term := 2, index := 4, command := .noop, username := "" }]
  leaderCommit := 3

def fromLeader (call : Call) : NodeEvent :=
  .receive (.call { src := "n2", epoch := 1, address := "a1", call })

def answerTo (call : Call) (response : Response) : NodeEvent :=
  .receive (.reply { src := "n1", epoch := 1, address := "a2", call } response)

/-- The node restores the snapshot, applies the third entry and folds its log. It
is made the leader of term 2, and finds that the other node has lost its log. -/
def beforeDump : List NodeEvent :=
  [.act .start, fromLeader (.installSnapshot firstTwoChunk firstTwo), .act (.beginInstall 0),
    .act (.finishInstall true), fromLeader (.appendEntries "n1" thirdEntry 1), .act .beginApply,
    .act (.finishApply .none), .act (.compact 1), fromLeader (.timeoutNow ⟨1, "n2"⟩ 0),
    answerTo (.requestVote "n2" heirsRequest) (.requestVote ⟨2, true⟩),
    .act (.replicate "n2" 2 0), .act (.sendNext 0),
    answerTo (.appendEntries "n2" heirsNoop 1)
      (.appendEntries { term := 2, success := false, conflictIndex := 1 }),
    .act (.replicate "n2" 2 0)]

/-- So it sends its own snapshot. -/
def takesOver : List NodeEvent :=
  beforeDump ++ .act (.writeSnapshot 0 [1, 1]) :: [.act (.sendNext 0)]

theorem consecutive_fromLeader {call : Call} (h : ∀ peer req seq, call ≠ .appendEntries peer req seq) :
    (fromLeader call).Consecutive := by
  rintro req ⟨env, peer, seq, hcalls, hcall⟩
  cases hcalls
  exact absurd hcall (h peer req seq)

theorem consecutive_answerTo {call : Call} {response : Response} :
    (answerTo call response).Consecutive := by
  rintro req ⟨env, peer, seq, hcalls, -⟩
  cases hcalls

theorem labelled_firstTwo : termNotes.Labelled twoWrites [] firstTwo where
  file := rfl
  lastTerm := rfl
  config := rfl

theorem chunkOf_firstTwo : firstTwoChunk.ChunkOf firstTwo where
  index := rfl
  lastTerm := rfl
  config := rfl
  data := rfl
  done := by decide

theorem orderly_takesOver : termNotes.Orderly twoWrites [] heir takesOver where
  base := rfl
  alive := by simp [takesOver, beforeDump, fromLeader, answerTo]
  restores := by simp [takesOver, beforeDump, fromLeader, answerTo]
  consecutive ev hin := by
    simp only [takesOver, beforeDump, List.mem_append, List.mem_cons, List.not_mem_nil,
      or_false] at hin
    rcases hin with (rfl | rfl | rfl | rfl | rfl | rfl | rfl | rfl | rfl | rfl | rfl | rfl | rfl |
      rfl) | rfl | rfl
    · exact consecutive_act _
    · exact consecutive_fromLeader fun _ _ _ h => by cases h
    · exact consecutive_act _
    · exact consecutive_act _
    · refine consecutive_call rfl fun j x hx => ?_
      cases j with
      | zero =>
          cases hx
          rfl
      | succ j => cases hx
    · exact consecutive_act _
    · exact consecutive_act _
    · exact consecutive_act _
    · exact consecutive_fromLeader fun _ _ _ h => by cases h
    · exact consecutive_answerTo
    · exact consecutive_act _
    · exact consecutive_act _
    · exact consecutive_answerTo
    · exact consecutive_act _
    · exact consecutive_act _
    · exact consecutive_act _
  chunks p hin := by
    simp only [takesOver, beforeDump, fromLeader, answerTo, List.mem_append, List.mem_cons,
      List.not_mem_nil, or_false, reduceCtorEq, false_or, NodeEvent.receive.injEq] at hin
    rcases hin with rfl | rfl | rfl | rfl | rfl
    · intro req t h
      cases h
      exact ⟨labelled_firstTwo, chunkOf_firstTwo⟩
    · intro req t h
      cases h
    · intro req t h
      cases h
    · intro r h
      cases h
    · intro r h
      cases h
  dumps pre k file post hsplit := by
    have hbefore : NodeEvent.act (.writeSnapshot k file) ∉ beforeDump := by
      simp [beforeDump, fromLeader, answerTo]
    obtain ⟨rfl, hev, -⟩ := (List.append_cons_inj_of_notMem hbefore (by simp)).mp hsplit
    cases hev
    decide +kernel
  agrees pre post hsplit := by
    have hall : ∀ j ≤ 16, ∀ k ≤ ((boot heir fun _ => []).run (takesOver.take j)).node.commitIndex,
        ((boot heir fun _ => []).run (takesOver.take j)).node.snapshotIndex < k →
        ((boot heir fun _ => []).run (takesOver.take j)).node.entryAt k =
          some (twoWrites.entry k) := by
      decide +kernel
    have hlen : pre.length ≤ 16 := by
      have : takesOver.length = pre.length + post.length := by rw [hsplit, List.length_append]
      have hsize : takesOver.length = 16 := rfl
      omega
    have hpre : takesOver.take pre.length = pre := by rw [hsplit]; simp
    intro k hlt hle
    have := hall pre.length hlen k
    rw [hpre] at this
    exact this hle hlt

theorem machine_in_step_heir :
    let e := (termNotes.run (boot heir fun _ => [], []) takesOver).1
    (e.applyLock = .free → (termNotes.run (boot heir fun _ => [], []) takesOver).2 =
      termNotes.stateAt twoWrites [] e.node.lastApplied) ∧
    (e.node.snapshotIndex ≤ e.node.lastApplied ∧ e.node.lastApplied ≤ e.node.commitIndex) ∧
    (∀ pre post, takesOver = pre ++ post →
      (termNotes.run (boot heir fun _ => [], []) pre).1.node.lastApplied ≤ e.node.lastApplied) ∧
    (∀ p ∈ e.outbox, p.Chunked (termNotes.Labelled twoWrites [])) ∧
    ∀ t, .snapshot t ∈ e.outgoing → termNotes.Labelled twoWrites [] t :=
  machine_in_step termNotes twoWrites [] heir takesOver orderly_takesOver

end KvCache
