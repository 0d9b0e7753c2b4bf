import KvCache.ClusterThreads

/-!
# Every section of a node keeps the invariant

The sections that are left - the applier, the client calls and the
constructor - and then all of them together: `Rel.step` for one event of a
node whose packet, if it receives one, is right. `boot_rel` starts the
induction.
-/

namespace KvCache

open QuorumLog QuorumLog.History StateWp Engine
open MemoryRaftStorage (Holds load_log)

variable {c : Cluster} {h h₀ : Hist} {i : NodeId} {e : Engine}

/-! ## Applying and compacting -/

/-- An entry within the commit index is decided. -/
theorem NodeRel.decided (r : NodeRel c h i e.core) {k : Nat} {y : LogEntry} (hpos : 0 < k)
    (hk : k ≤ e.node.commitIndex) (hy : e.node.entryAt k = some y) : Decided c h k y := by
  have v : e.node.Shows (h.log i) := r.shows
  rw [v.entryAt] at hy
  split at hy
  · refine ⟨_, _, r.commit, hpos, ?_⟩
    change ((h.log i).take e.node.commitIndex)[k - 1]? = some y
    rw [List.getElem?_take, if_pos (by omega), hy]
  · cases hy

theorem Rel.setLock (he : Rel c h₀ i e) {k : Nat} {y : LogEntry}
    (hk : k ≤ e.node.commitIndex) (hpos : 0 < k) (hy : e.node.entryAt k = some y) :
    Rel c h₀ i (e.setLock (.applying k y)) :=
  he.keep fun h _ _ _ r => r.setQueues
    (fun _ _ hl => by
      obtain ⟨rfl, rfl⟩ := ApplyLock.applying.inj hl
      exact ⟨hk, r.decided hpos hk hy⟩)
    (fun _ hl => nomatch hl)
    (fun _ hz => Or.inl <| Core.mem_pending.mpr <| (Core.mem_pending.mp hz).imp
      (fun hl => nomatch hl) id)
    (fun _ hy => Or.inl hy) (fun _ hy => Or.inl hy) fun _ hp => Or.inl hp

theorem wp_beginApply (he : Rel c h₀ i e) :
    wp beginApply (fun _ => Rel c h₀ i) (fun _ => Rel c h₀ i) e := by
  simp only [beginApply, wp_bind, wp_get]
  split
  · rename_i y _ hy
    simp only [wp_ite, wp_modify, wp_pure]
    split
    · rename_i hk
      exact he.setLock hk.2 (Nat.succ_pos _) hy
    · exact he
  · exact he

/-- Compacting where the membership is known only moves the boundary. -/
theorem core_compact {k t : Nat} {ms : List Member} {f : MemoryRaftStorage → MemoryRaftStorage}
    (hc : e.node.snapshotConfig = some ms) (hk : e.node.snapshotIndex ≤ k)
    (ht : e.node.termAt k = some t) :
    ((e.compact k t (some ms)).store f).core
      = { e.core with
          log := e.node.log.drop (k - e.node.snapshotIndex), snapshotIndex := k
          snapshotTerm := t, storage := f e.storage } := by
  rw [← e.node.compactThrough_log (some ms) hk ht]
  simp only [Engine.core, Engine.store, Engine.compact, hc]
  rfl

theorem wp_maybeSnapshot (he : Rel c h₀ i e) (threshold : Nat) :
    wp (maybeSnapshot threshold) (fun _ => Rel c h₀ i) (fun _ => Rel c h₀ i) e := by
  simp only [maybeSnapshot, wp_bind, wp_get, wp_ite, wp_pure, wp_modify]
  split
  · exact he
  · rw [wp_storageCall_ok (e := e.compact _ _ _) (he.faults _)]
    refine he.keep fun h _ ok cl r => ?_
    have v : e.node.Shows (h.log i) := r.shows
    have hle : e.node.lastApplied ≤ (h.log i).length := r.applied_le.trans r.commit_le
    have ht : e.node.termAt e.node.lastApplied
        = some (lastTerm ((h.log i).take e.node.lastApplied)) := by
      rw [v.termAt, if_pos ⟨r.snapshot_le, hle⟩]
    rw [r.configAt ok cl, ht, Option.getD_some]
    have hle' : e.node.snapshotIndex ≤ e.node.lastApplied := r.snapshot_le
    rw [core_compact r.config hle' ht]
    refine r.compact ?_ ?_
    · rw [← e.node.compactThrough_log (some c.members) hle' ht]
      exact v.compact (some c.members) ht
    · have hst : Stored (e.core.withLog e.node.log e.storage) := r.stored
      exact Stored.snapshot hst r.snapshot_le r.applied_le r.config

theorem Rel.noteApplied (he : Rel c h₀ i e) {k : Nat} {y : LogEntry}
    (hlock : e.applyLock = .applying k y) (t : Nat) (result : Result) :
    Rel c h₀ i (e.noteApplied k t result) :=
  he.keep fun _ _ _ _ r => r.setApplied (Nat.le_max_left _ _)
    (Nat.max_le.mpr ⟨r.applied_le, (r.applying k y hlock).1⟩)

theorem wp_finishApply (he : Rel c h₀ i e) (result : Result) :
    wp (finishApply result) (fun _ => Rel c h₀ i) (fun _ => Rel c h₀ i) e := by
  simp only [finishApply, wp_bind, wp_get]
  split
  · rename_i k y hlock
    simp only [wp_bind, wp_get, wp_ite, wp_modify]
    have happ := he.noteApplied hlock y.term (y.command.applied result)
    split
    · exact wp_becomeFollower happ fun e' he' _ _ => wp_maybeSnapshot he' _
    · exact wp_maybeSnapshot happ _
  · exact he

theorem wp_stopApply (he : Rel c h₀ i e) :
    wp stopApply (fun _ => Rel c h₀ i) (fun _ => Rel c h₀ i) e := by
  simp only [stopApply, wp_bind, wp_get]
  split
  · simp only [wp_ite, wp_modify, wp_pure]
    split
    · exact he.keep fun h _ _ _ r => r.setQueues (fun _ _ hl => by cases hl)
        (fun _ hl => by cases hl)
        (fun _ hz => Or.inl <| Core.mem_pending.mpr <| (Core.mem_pending.mp hz).imp
          (fun hl => by cases hl) id)
        (fun _ hy => Or.inl hy) (fun _ hy => Or.inl hy) fun _ hp => Or.inl hp
    · exact he
  · exact he

/-! ## Client calls -/

theorem wp_startProposal (he : Rel c h₀ i e) {command : Command}
    (hc : parseConfig command = none) (username requestId : String) (timeout : Nat) :
    wp (startProposal command username requestId timeout)
      (fun _ => Rel c h₀ i) (fun _ => Rel c h₀ i) e := by
  simp only [startProposal, propose, wp_bind, wp_get, wp_ite, wp_throw]
  split
  · exact he
  · split
    · exact he
    · rename_i hs
      refine wp_appendLocal_leader he (Decidable.not_not.mp hs) rfl rfl hc fun e' he' => ?_
      have hw : Rel c h₀ i (e'.addWaiter (e.newEntry command username requestId).index) :=
        he'.frame rfl
      exact hw.advanceCommitIndex.frame rfl

theorem wp_wakeProposal (he : Rel c h₀ i e) (id : Nat) :
    wp (wakeProposal id) (fun _ => Rel c h₀ i) (fun _ => Rel c h₀ i) e := by
  simp only [wakeProposal, wp_bind, wp_get]
  split
  · split
    · exact he
    · exact he.frame rfl
    · exact he
  · exact he

theorem wp_wakeChange (he : Rel c h₀ i e) :
    wp wakeChange (fun _ => Rel c h₀ i) (fun _ => Rel c h₀ i) e := by
  simp only [wakeChange, wp_bind, wp_get, he.noChange, wp_pure]
  exact he

theorem wp_transferLeadership (he : Rel c h₀ i e) (timeout : Nat) :
    wp (transferLeadership timeout) (fun _ => Rel c h₀ i) (fun _ => Rel c h₀ i) e := by
  simp only [transferLeadership, wp_bind, wp_get]
  split
  · simp only [wp_ite, wp_modify, wp_pure]
    split
    · exact he.frame rfl
    · exact he
  · exact he

theorem Rel.stepHandover (he : Rel c h₀ i e) (d : Handover) : Rel c h₀ i (e.stepHandover d) := by
  have hp : ∀ phase, Rel c h₀ i (e.handoverPhase d phase) := fun _ => he.frame rfl
  unfold Engine.stepHandover
  split
  · split
    · split
      · exact hp _
      · exact he
    · split
      · exact (hp _).send fun _ _ _ => trivial
      · exact hp _
  · exact hp _
  · split
    · exact he
    · exact hp _
  · exact he.frame rfl
  · exact he

theorem wp_wakeHandover (he : Rel c h₀ i e) (id : Nat) :
    wp (wakeHandover id) (fun _ => Rel c h₀ i) (fun _ => Rel c h₀ i) e := by
  simp only [wakeHandover, wp_modify]
  split
  · exact he.stepHandover _
  · exact he

theorem Rel.setRead (he : Rel c h₀ i e) (d : ReadCall) (phase : ReadPhase) :
    Rel c h₀ i (e.setRead d phase) := he.frame rfl

theorem Rel.replyRead (he : Rel c h₀ i e) (env : Envelope) (success : Bool) (index : Nat) :
    Rel c h₀ i (e.replyRead env success index) :=
  he.reply fun h _ => by
    unfold ReplyOk
    split <;> trivial

theorem Rel.confirmed (he : Rel c h₀ i e) (d : ReadCall) (out : Except EngineError ReadPhase) :
    Rel c h₀ i (e.confirmed d out) := by
  unfold Engine.confirmed
  split
  · split
    · exact he.setRead _ _
    · exact (he.setRead _ _).replyRead _ _ _
  · exact he.setRead _ _
  · split
    · exact (he.setRead _ _).replyRead _ _ _
    · exact he.setRead _ _
    · exact he.setRead _ _

theorem Rel.remoteReadIndex (he : Rel c h₀ i e) (d : ReadCall) :
    Rel c h₀ i (e.remoteReadIndex d) := by
  simp only [Engine.remoteReadIndex]
  generalize (if e.node.leaderId.isSome then e.leaderAddress else "") = address
  split
  · exact he.setRead _ _
  · exact (he.setRead _ _).send fun _ _ _ => trivial

theorem Rel.stepRead (he : Rel c h₀ i e) (d : ReadCall) : Rel c h₀ i (e.stepRead d) := by
  unfold Engine.stepRead
  split
  · exact he.setRead _ _
  · exact he.confirmed _ _
  · exact he.confirmed _ _
  · exact he.confirmed _ _
  · exact he.remoteReadIndex _
  · exact he.setRead _ _
  · split
    · exact he.setRead _ _
    · split
      · exact he.setRead _ _
      · exact he
  · exact he
  · exact he

theorem wp_wakeRead (he : Rel c h₀ i e) (id : Nat) :
    wp (wakeRead id) (fun _ => Rel c h₀ i) (fun _ => Rel c h₀ i) e := by
  simp only [wakeRead, wp_modify]
  split
  · exact he.stepRead _
  · exact he

/-! ## Starting -/

theorem sameItems_empty {d : Dict NodeId Member} (hd : d.sameItems Dict.empty = true) :
    d = Dict.empty := by
  have hsize : d.size = 0 := (of_decide_eq_true hd).1
  exact Dict.ext_items (List.length_eq_zero_iff.mp hsize)

/-- A process that is starting adopts the membership it has stored. -/
theorem core_refreshConfig_starting {ms : List Member}
    (hlog : ∀ y ∈ e.node.log, parseConfig y.command = none)
    (hc : e.node.snapshotConfig = some ms) (hm : e.members = Dict.empty)
    (hl : e.learners = Dict.empty) (hs : e.node.state = .follower) :
    e.refreshConfig.core = { e.core with members := membersOf ms } := by
  have hnone := RaftNode.latestConfig_eq hlog
  have hnil : ∀ f, e.learners.filter f = e.learners := fun f => by
    rw [hl]
    rfl
  simp only [refreshConfig, hnone, hc, Option.getD_some, hm]
  split
  · rename_i hsame
    rw [sameItems_empty hsame, ← hm]
    rfl
  · simp only [hs, reduceCtorEq, if_false, Engine.core, hnil]

theorem core_markUp (e : Engine) : e.markUp.core = e.core := rfl

/-- What `load` reads is what was in memory. -/
theorem core_reload (r : NodeRel c h i e.core) :
    e.blank.reload.core = { e.core with
      state := .follower
      commitIndex := max e.storage.lastApplied e.storage.snapshotIndex
      lastApplied := max e.storage.lastApplied e.storage.snapshotIndex
      matchIndex := Dict.empty, members := Dict.empty, learners := Dict.empty, votes := []
      termStartIndex := 0, ledTerm := 0, applyLock := .free, installs := [], outgoing := []
      transfers := [], outbox := [] } := by
  have hs := r.stored
  have hterm : e.storage.load.currentTerm = e.node.currentTerm := hs.term
  have hvote : e.storage.load.votedFor = e.node.votedFor := hs.vote
  have hindex : e.storage.load.snapshotIndex = e.node.snapshotIndex := hs.snapshotIndex
  have hsterm : e.storage.load.snapshotTerm = e.node.snapshotTerm := hs.snapshotTerm
  have hconfig : e.storage.load.snapshotConfig = e.node.snapshotConfig := hs.config
  have hlog : e.storage.load.log = e.node.log := load_log (hs.snapshotIndex ▸ hs.log)
  have hno : e.configChange = none := r.noChange
  simp only [Engine.core, Engine.reload, Engine.blank, hterm, hvote, hindex, hsterm, hconfig, hlog,
    hno]
  rw [← hindex]
  rfl

/-- A crash loses nothing that counts. -/
theorem core_construct (ok : c.HistOk h) (cl : LeadsClean h) (r : NodeRel c h i e.core) :
    (after construct e).core = { e.core with
      state := .follower
      commitIndex := max e.storage.lastApplied e.storage.snapshotIndex
      lastApplied := max e.storage.lastApplied e.storage.snapshotIndex
      matchIndex := Dict.empty, learners := Dict.empty, votes := []
      termStartIndex := 0, ledTerm := 0, applyLock := .free, installs := [], outgoing := []
      transfers := [], outbox := [] } := by
  have hconfig : e.blank.reload.node.snapshotConfig = some c.members :=
    r.stored.config.trans r.config
  have hno : ∀ y ∈ e.blank.reload.node.log, parseConfig y.command = none := by
    rw [show e.blank.reload.node.log = e.node.log from congrArg Core.log (core_reload r)]
    exact r.noConfig ok cl
  have hmem : e.members = membersOf c.members := r.members
  refine (wp_after (P := fun e' : Engine => e'.core = _)).mp ?_
  simp only [construct, restorePersistentState, wp_bind, wp_get, wp_ite, wp_modify]
  rw [if_neg (by rw [hconfig]; simp), core_markUp,
    core_refreshConfig_starting hno hconfig rfl rfl rfl, core_reload r, ← hmem]
  rfl

theorem wp_construct (he : Rel c h₀ i e) :
    wp construct (fun _ => Rel c h₀ i) (fun _ => Rel c h₀ i) e := by
  refine wp_after.mpr (he.keep fun h _ ok cl r => ?_)
  rw [core_construct ok cl r]
  have hst := r.stored
  refine r.restart ?_ ?_ ?_
  · exact Nat.max_le.mpr ⟨hst.applied, hst.snapshotIndex ▸ r.snapshot_le.trans r.applied_le⟩
  · exact hst.snapshotIndex ▸ Nat.le_max_right _ _
  · exact Nat.le_max_left _ _

/-- A node that has just been set up: nothing has happened. -/
theorem boot_rel (c : Cluster) (i : NodeId) :
    NodeRel c QuorumLog.History.empty i (Engine.boot (c.settings i) fun _ => []).core := by
  refine (wp_after (P := fun e : Engine => NodeRel c QuorumLog.History.empty i e.core)).mp ?_
  simp only [construct, restorePersistentState, wp_bind, wp_get, wp_ite, wp_modify]
  generalize hb : (Engine.blank { settings := c.settings i }).reload = b
  have hnone : b.node.snapshotConfig = none := hb ▸ rfl
  have hempty : b.node.log = [] := hb ▸ rfl
  rw [if_pos hnone, wp_storageCall_ok (e := b.useBootstrap) (hb ▸ rfl)]
  simp only [wp_modify, core_markUp]
  have hconfig : b.useBootstrap.node.snapshotConfig = some c.members := hb ▸ rfl
  rw [core_refreshConfig_starting (e := b.useBootstrap.store _) (fun y hy => by cases hempty ▸ hy)
    hconfig (hb ▸ rfl) (hb ▸ rfl) (hb ▸ rfl)]
  subst hb
  exact
      { settings := rfl
        faults := fun _ => rfl
        noChange := rfl
        config := rfl
        members := rfl
        learners := rfl
        cur := rfl
        shows := ⟨Nat.le_refl _, rfl, rfl⟩
        commit_le := Nat.le_refl _
        commit := Or.inl rfl
        applied_le := Nat.le_refl _
        snapshot_le := Nat.le_refl _
        applying := fun _ _ hl => by cases hl
        installing := fun _ hl => by cases hl
        vote := fun _ _ hg => hg.elim
        stored :=
          { term := rfl, vote := rfl, snapshotIndex := rfl, snapshotTerm := rfl, config := rfl
            applied := Nat.le_refl _, log := Holds.empty 0 }
        leader := fun hs => by cases hs
        candidate := fun hs => by cases hs
        office := Or.inl rfl
        pending := fun _ hy => by cases hy
        queues :=
          { pending := fun _ hy => by cases hy
            outgoing := fun _ hy => by cases hy
            transfers := fun _ hy => by cases hy
            outbox := fun _ hy => by cases hy } }

/-! ## One event -/

theorem wp_action (he : Rel c h₀ i e) {a : Action} (ha : a.FixedMembership) :
    wp a.body (fun _ => Rel c h₀ i) (fun _ => Rel c h₀ i) e := by
  cases a with
  | tick ms => exact he.frame rfl
  | restart => exact wp_construct he
  | start => exact wp_start he
  | stop => exact he.frame rfl
  | electionTimeout generation => exact wp_startElection he _
  | checkQuorum term => exact wp_checkQuorum he term
  | replicate peer term wakeup => exact wp_replicate he peer term wakeup
  | sendNext k => exact wp_sendNext he k
  | writeSnapshot k file => exact wp_writeSnapshot he k file
  | finishTransfer k => exact wp_finishTransfer he k
  | beginInstall k => exact wp_beginInstall he k
  | finishInstall restored => exact wp_finishInstall he restored
  | beginApply => exact wp_beginApply he
  | finishApply result => exact wp_finishApply he result
  | stopApply => exact wp_stopApply he
  | compact threshold => exact wp_maybeSnapshot he threshold
  | propose text username requestId timeout =>
      simp only [Action.body, wp_bind]
      exact wp_mono (wp_startProposal he rfl username requestId timeout)
        (fun _ _ he' => he') fun _ _ he' => he'
  | wakeProposal id => exact wp_wakeProposal he id
  | changeMembership change deadline => exact ha.elim
  | wakeChange => exact wp_wakeChange he
  | transferLeadership timeout => exact wp_transferLeadership he timeout
  | wakeHandover id => exact wp_wakeHandover he id
  | readIndex timeout => exact he.frame rfl
  | wakeRead id => exact wp_wakeRead he id

/-- A packet that is right and meant for the node. -/
theorem wp_receive (hi : i ∈ c.ids) (he : Rel c h₀ i e) {p : Packet} (hp : p.Ok c h₀)
    (hr : p.reaches e = true) :
    wp (receive p) (fun _ => Rel c h₀ i) (fun _ => Rel c h₀ i) e := by
  cases p with
  | call env =>
      simp only [receive, wp_bind, wp_get, wp_ite, wp_pure]
      split
      · refine wp_handleRpc hi he hp ?_
        obtain ⟨h, -, -, -, r⟩ := he
        have hset : e.settings = c.settings i := r.settings
        have ha : env.address = e.settings.raftAddress := of_decide_eq_true hr
        rw [ha, hset]
        rfl
      · exact he
  | reply env response =>
      simp only [receive, wp_bind, wp_get, wp_ite, wp_pure]
      split
      · exact wp_handleReply he hp ((of_decide_eq_true hr).trans he.nodeId)
      · exact he

/-- What an event needs to keep the invariant. -/
def NodeEvent.Right (c : Cluster) (h : Hist) (e : Engine) : NodeEvent → Prop
  | .receive p => p.Ok c h ∧ p.reaches e = true
  | .act a => a.FixedMembership

/-- Every event of a node keeps the invariant. -/
theorem NodeRel.step (hi : i ∈ c.ids) (ok : c.HistOk h) (cl : LeadsClean h)
    (r : NodeRel c h i e.core) {ev : NodeEvent} (hev : ev.Right c h e) :
    Rel c h i (e.step ev) := by
  have he : Rel c h i e := Evolves.refl ok cl r
  refine wp_after.mp ?_
  cases ev with
  | receive p => exact wp_receive hi he hev.1 hev.2
  | act a => exact wp_action he hev

end KvCache
