import KvCache.ClusterMessages

/-!
# Threads keep the invariant

The sections of the replicators, of the applier, of snapshot transfer and
installation, of the client calls and of the constructor. What a replicator
builds from the leader's log is right when it is built and stays right until
it is sent, whatever happens to the leader in between.
-/

namespace KvCache

open QuorumLog QuorumLog.History StateWp Engine
open MemoryRaftStorage (Holds load_log)

variable {c : Cluster} {h h₀ : Hist} {i : NodeId} {e : Engine}

/-! ## Elections, check-quorum, start and stop -/

theorem wp_startElection (he : Rel c h₀ i e) (generation : Option Nat) :
    wp (startElection generation) (fun _ => Rel c h₀ i) (fun _ => Rel c h₀ i) e := by
  simp only [startElection, wp_bind, wp_get, wp_ite, wp_pure, wp_modify]
  split
  · exact he
  · split
    · exact he.frame rfl
    · split
      · exact wp_becomeCandidate he false fun e' he' => he'
      · exact he.requestPreVotes

theorem wp_checkQuorum (he : Rel c h₀ i e) (term : Nat) :
    wp (checkQuorum term) (fun _ => Rel c h₀ i) (fun _ => Rel c h₀ i) e := by
  simp only [checkQuorum, wp_bind, wp_get, wp_ite, wp_pure]
  split
  · exact wp_becomeFollower he fun e' he' _ _ => he'
  · exact he

theorem wp_start (he : Rel c h₀ i e) :
    wp start (fun _ => Rel c h₀ i) (fun _ => Rel c h₀ i) e := by
  simp only [start, wp_bind, wp_get, wp_ite, wp_pure, wp_modify]
  split
  · have hrun : Rel c h₀ i { e with running := true } := he.frame rfl
    split
    · exact wp_startElection hrun none
    · exact hrun.frame rfl
  · exact he

/-! ## Replication -/

theorem NodeRel.member (r : NodeRel c h i e.core) {p : NodeId} {m : Member}
    (hm : e.members.get? p = some m) : c.At p m.raftAddress := by
  have hmem : e.members = membersOf c.members := r.members
  have hitems : (membersOf c.members).items = c.members.map fun m => (m.nodeId, m) :=
    Dict.items_ofList (by rw [List.map_map]; exact c.ids_nodup)
  rw [Dict.get?_eq_some, hmem, hitems] at hm
  obtain ⟨m', hm', heq⟩ := List.mem_map.mp hm
  obtain ⟨rfl, rfl⟩ := Prod.mk.inj heq
  exact ⟨m', hm', rfl, rfl⟩

theorem NodeRel.target (r : NodeRel c h i e.core) {p : NodeId} {m : Member}
    (hm : e.targets.get? p = some m) : c.At p m.raftAddress := by
  have hl : e.learners = Dict.empty := r.learners
  rw [targets, hl, Dict.get?_eq_some, Dict.mem_erase] at hm
  exact r.member (Dict.get?_eq_some.mpr hm.2)

theorem Rel.push (he : Rel c h₀ i e) {o : Outgoing}
    (ho : ∀ h, c.HistOk h → LeadsClean h → NodeRel c h i e.core → o.Ok c h) :
    Rel c h₀ i (e.push o) :=
  he.keep fun h _ ok cl r => r.setQueues r.applying r.installing (fun _ hy => Or.inl hy)
    (fun y hy => (List.mem_append.mp hy).imp id fun hy => by
      obtain rfl := List.mem_singleton.mp hy
      exact ho h ok cl r)
    (fun _ hy => Or.inl hy) fun _ hp => Or.inl hp

theorem Rel.pull (he : Rel c h₀ i e) (k : Nat) : Rel c h₀ i (e.pull k) :=
  he.keep fun _ _ _ _ r => r.setQueues r.applying r.installing (fun _ hy => Or.inl hy)
    (fun _ hy => Or.inl (List.mem_of_mem_eraseIdx hy)) (fun _ hy => Or.inl hy) fun _ hp => Or.inl hp

/-- The request a leader builds is a piece of its log. -/
theorem NodeRel.entriesRequest (r : NodeRel c h i e.core) (hs : e.node.state = .leader)
    {nextIdx : Nat} (hn : e.node.snapshotIndex < nextIdx) :
    AppendOk c h (e.entriesRequest e.node.currentTerm nextIdx) := by
  obtain ⟨k, rfl⟩ : ∃ k, nextIdx = k + 1 := Nat.exists_eq_succ_of_ne_zero (by omega)
  have hk : e.node.snapshotIndex ≤ k := Nat.le_of_lt_succ hn
  have v : e.node.Shows (h.log i) := r.shows
  have hl := r.leader hs
  obtain ⟨b, hb⟩ := hl.elected
  have hlog : h.log i = h.lead e.node.currentTerm := hl.log
  refine ⟨⟨i, b, hb⟩, ⟨(h.log i).take (k + maxEntriesPerRpc), ?_, ?_, ?_⟩, ?_⟩
  · exact hlog ▸ List.take_prefix _ _
  · exact v.entriesFrom hk maxEntriesPerRpc
  · intro u hu
    rw [show (e.entriesRequest e.node.currentTerm (k + 1)).prevLogTerm = e.node.termAt k from rfl,
      v.termAt] at hu
    change k ≤ _ ∧ u = lastTerm (List.take k _)
    split at hu
    · rename_i hin
      refine ⟨?_, ?_⟩
      · rw [List.length_take]
        exact Nat.le_min.mpr ⟨Nat.le_add_right _ _, hin.2⟩
      · rw [List.take_take, Nat.min_eq_left (Nat.le_add_right _ _)]
        exact (Option.some.inj hu).symm
    · cases hu
  · change e.node.commitIndex ≤ (h.lead e.node.currentTerm).length ∧
      c.Settled h e.node.currentTerm ((h.lead e.node.currentTerm).take e.node.commitIndex)
    rw [← hlog]
    exact ⟨r.commit_le, r.commit⟩

theorem wp_replicate (he : Rel c h₀ i e) (peerId : NodeId) (term wakeup : Nat) :
    wp (replicate peerId term wakeup) (fun _ => Rel c h₀ i) (fun _ => Rel c h₀ i) e := by
  simp only [replicate, wp_bind, wp_get]
  have hdrop : Rel c h₀ i (e.dropReplicator peerId wakeup) :=
    he.frame (core_dropReplicator e peerId wakeup)
  split
  · exact hdrop
  · rename_i peer hpeer
    simp only [wp_ite]
    split
    · exact hdrop
    · rename_i hn
      simp only [not_or, Decidable.not_not] at hn
      obtain ⟨-, hs, rfl⟩ := hn
      split
      · exact he
      · rename_i nextIdx hnext
        simp only [wp_ite, wp_modify]
        split
        · rename_i hlt
          exact he.push fun h _ _ r => ⟨r.target hpeer, r.entriesRequest hs hlt⟩
        · exact he.push fun h _ _ r => r.target hpeer

theorem wp_sendNext (he : Rel c h₀ i e) (k : Nat) :
    wp (sendNext k) (fun _ => Rel c h₀ i) (fun _ => Rel c h₀ i) e := by
  simp only [sendNext, wp_bind, wp_get]
  obtain ⟨h, g, ok, cl, r⟩ := he
  have hnext : Rel c h i (e.pull k).nextSendSeq :=
    (Rel.pull (Evolves.refl ok cl r) k).frame rfl
  have hout : ∀ o, e.outgoing[k]? = some o → o.Ok c h := fun o ho =>
    r.queues.outgoing o (List.mem_of_getElem? ho)
  split
  · rename_i peer address request hk
    refine Evolves.trans g (hnext.send fun h' g' r' => ?_)
    exact Outgoing.Ok.mono g' (hout _ hk)
  · rename_i transfer hk
    exact Evolves.trans g (hnext.sendChunk (hout _ hk))
  · exact ⟨h, g, ok, cl, r⟩

/-- The log of a node has no CONFIG entry. -/
theorem NodeRel.noConfig (ok : c.HistOk h) (cl : LeadsClean h) (r : NodeRel c h i e.core) :
    ∀ y ∈ e.node.log, parseConfig y.command = none := fun y hy => by
  have v : e.node.Shows (h.log i) := r.shows
  exact (cl.backed (ok.backed i)).2 y (List.mem_of_mem_drop (v.log_eq ▸ hy))

theorem NodeRel.configAt (ok : c.HistOk h) (cl : LeadsClean h) (r : NodeRel c h i e.core)
    (k : Nat) : e.node.configAt k = some c.members :=
  (RaftNode.configAt_eq (r.noConfig ok cl) k).trans r.config

/-- The transfer of a state machine stands for what is applied. -/
theorem NodeRel.newTransfer (ok : c.HistOk h) (cl : LeadsClean h) (r : NodeRel c h i e.core)
    (hs : e.node.state = .leader) {p : NodeId} {a : String} (ha : c.At p a) (file : List UInt8) :
    TransferOk c h (e.newTransfer p a e.node.currentTerm file) := by
  have v : e.node.Shows (h.log i) := r.shows
  obtain ⟨b, hb⟩ := (r.leader hs).elected
  have hle : e.node.lastApplied ≤ (h.log i).length := r.applied_le.trans r.commit_le
  refine ⟨ha, ⟨i, b, hb⟩, ?_, (h.log i).take e.node.lastApplied, ?_, ?_, ?_⟩
  · change (e.node.configAt e.node.lastApplied).getD [] = c.members
    rw [r.configAt ok cl, Option.getD_some]
  · exact List.length_take_of_le hle
  · change _ = (e.node.termAt e.node.lastApplied).getD 0
    rw [v.termAt, if_pos ⟨r.snapshot_le, hle⟩, Option.getD_some]
  · exact r.commit.shorten (List.take_prefix_take_left r.applied_le)

theorem wp_writeSnapshot (he : Rel c h₀ i e) (k : Nat) (file : List UInt8) :
    wp (writeSnapshot k file) (fun _ => Rel c h₀ i) (fun _ => Rel c h₀ i) e := by
  simp only [writeSnapshot, wp_bind, wp_get]
  split
  · rename_i peer address term hfree hk
    simp only [wp_bind, wp_ite, wp_modify, wp_pure]
    split
    · rename_i hs
      obtain ⟨hs, rfl⟩ := hs
      have hat : c.At peer address := by
        obtain ⟨h, -, -, -, r⟩ := he
        exact r.queues.outgoing _ (List.mem_of_getElem? hk)
      exact (he.pull k).push fun h ok cl r => r.newTransfer ok cl hs hat file
    · exact he.pull k
  · exact he

theorem wp_finishTransfer (he : Rel c h₀ i e) (k : Nat) :
    wp (finishTransfer k) (fun _ => Rel c h₀ i) (fun _ => Rel c h₀ i) e := by
  simp only [finishTransfer, wp_bind, wp_get]
  split
  · rename_i transfer hk
    simp only [wp_bind, wp_ite, wp_modify, wp_pure]
    obtain ⟨h, g, ok, cl, r⟩ := he
    have ht : TransferOk c h transfer := r.queues.transfers _ (List.mem_of_getElem? hk)
    have hdrop : Rel c h i (e.dropTransfer k) := Evolves.refl ok cl <|
      r.setQueues r.applying r.installing (fun _ hy => Or.inl hy) (fun _ hy => Or.inl hy)
        (fun _ hy => Or.inl (List.mem_of_mem_eraseIdx hy)) fun _ hp => Or.inl hp
    split
    · rename_i hs
      refine Evolves.trans g (hdrop.noteMatch fun h' g' ok' => ?_).advanceCommitIndex
      -- the snapshot stands for a prefix of the leader's log
      obtain ⟨hw, -, s, hlen, -, hset⟩ := (ht.mono g').2
      have hpre := ok'.settled_prefix_lead c.quorum_inter hset hw (Nat.le_refl _)
      rw [show (e.dropTransfer k).node.currentTerm = transfer.term from hs.2, ← hlen]
      refine ⟨hpre.length_le, Or.inl ?_⟩
      rw [← List.prefix_iff_eq_take.mp hpre]
      exact hset
    · exact Evolves.trans g hdrop
  · exact he

/-! ## Installing a snapshot -/

theorem Rel.replyInstall (he : Rel c h₀ i e) {y : Install} (hy : y.env.Ok c h₀) :
    Rel c h₀ i (e.replyInstall y) :=
  he.reply fun h g => by
    have := Envelope.Ok.mono g hy
    unfold ReplyOk
    unfold Envelope.Ok at this
    split
    · rename_i heq
      cases heq
    · rename_i heq
      cases heq
    · rename_i hc _
      rw [hc] at this
      exact this
    · trivial

theorem wp_beginInstall (he : Rel c h₀ i e) (k : Nat) :
    wp (beginInstall k) (fun _ => Rel c h₀ i) (fun _ => Rel c h₀ i) e := by
  simp only [beginInstall, wp_bind, wp_get]
  split
  · rename_i y hfree hk
    simp only [wp_bind, wp_ite, wp_modify]
    obtain ⟨h, g, ok, cl, r⟩ := he
    have hmem : y ∈ e.core.pending := Core.mem_pending.mpr (Or.inr (List.mem_of_getElem? hk))
    have hsub : ∀ z ∈ e.installs.eraseIdx k, z ∈ e.core.pending := fun z hz =>
      Core.mem_pending.mpr (Or.inr (List.mem_of_mem_eraseIdx hz))
    have hdrop : Rel c h i (e.dropInstall k) := Evolves.refl ok cl <|
      r.setQueues r.applying r.installing
        (fun z hz => Or.inl <| (Core.mem_pending.mp hz).elim
          (fun hz => by cases hfree.symm.trans hz) (hsub z))
        (fun _ hy => Or.inl hy) (fun _ hy => Or.inl hy) fun _ hp => Or.inl hp
    split
    · exact Evolves.trans g (hdrop.replyInstall (r.queues.pending y hmem).1)
    · rename_i hlt
      refine Evolves.trans g (Evolves.refl ok cl ?_)
      refine r.setQueues (fun _ _ hl => by cases hl) (fun z hz => ?_) (fun z hz => Or.inl ?_)
        (fun _ hy => Or.inl hy) (fun _ hy => Or.inl hy) fun _ hp => Or.inl hp
      · obtain rfl := ApplyLock.installing.inj hz
        exact Nat.lt_of_not_le hlt
      · rcases Core.mem_pending.mp hz with hz | hz
        · exact ApplyLock.installing.inj hz ▸ hmem
        · exact hsub z hz
  · exact he

theorem Rel.refreshConfig (he : Rel c h₀ i e) : Rel c h₀ i e.refreshConfig :=
  he.keep fun h _ ok cl r => by
    rw [core_refreshConfig (r.noConfig ok cl) r.config r.members]
    exact r

/-- A snapshot boundary is recorded and the entries it covers are dropped. -/
theorem Stored.snapshot {x : Core} {log : List LogEntry} {st : MemoryRaftStorage}
    (hs : Stored (x.withLog log st)) {k t a m : Nat} (hk : x.snapshotIndex ≤ k) (ha : a ≤ m)
    {ms : List Member} (hc : x.snapshotConfig = some ms) :
    Stored { x with
      commitIndex := m, lastApplied := a, log := log.drop (k - x.snapshotIndex)
      snapshotIndex := k, snapshotTerm := t, storage := st.saveSnapshot k t a (some ms) } where
  term := hs.term
  vote := hs.vote
  snapshotIndex := rfl
  snapshotTerm := rfl
  config := hc.symm
  applied := ha
  log := by
    have := hs.log.drop (k - x.snapshotIndex)
    rw [show (x.withLog log st).snapshotIndex + (k - x.snapshotIndex) = k from
      Nat.add_sub_cancel' hk] at this
    exact this

/-- Whether a log agrees with a snapshot is what `termAt` tells. -/
theorem NodeRel.termAt_snapshot (ok : c.HistOk h) (r : NodeRel c h i e.core) {t : Nat}
    {s : List LogEntry} (hset : c.Settled h t s) (hlt : e.node.lastApplied < s.length) :
    e.node.termAt s.length = some (lastTerm s) ↔ s <+: h.log i := by
  have v : e.node.Shows (h.log i) := r.shows
  have hle : e.node.snapshotIndex ≤ s.length := Nat.le_trans r.snapshot_le (Nat.le_of_lt hlt)
  have hne : s ≠ [] := List.ne_nil_of_length_pos (Nat.zero_lt_of_lt hlt)
  rw [← snapshot_agrees ok hset hne, v.termAt]
  constructor
  · intro ht
    split at ht
    · rename_i hin
      exact ⟨hin.2, Option.some.inj ht⟩
    · cases ht
  · rintro ⟨h1, h2⟩
    rw [if_pos ⟨hle, h1⟩, h2]

/-- The snapshot of a settled prefix is adopted; `f` is what has happened to
the storage before. -/
theorem NodeRel.adopt (ok : c.HistOk h) (cl : LeadsClean h) (r : NodeRel c h i e.core)
    (hfree : e.applyLock = .free) {req : InstallSnapshotRequest} (hreq : InstallOk c h req)
    (hterm : req.term ≤ e.node.currentTerm)
    (hrole : e.node.state ≠ .follower → req.term < e.node.currentTerm)
    (hlt : e.node.lastApplied < req.lastIncludedIndex) {f : MemoryRaftStorage → MemoryRaftStorage}
    (hf : if e.node.termAt req.lastIncludedIndex = some req.lastIncludedTerm then f = id
      else f = fun st => st.truncateFrom (e.node.snapshotIndex + 1)) :
    Rel c h i (((e.store f).adoptSnapshot req).store fun st =>
      st.saveSnapshot req.lastIncludedIndex req.lastIncludedTerm
        (max e.node.lastApplied req.lastIncludedIndex) (some (req.config.getD []))) := by
  obtain ⟨-, hconfig, s, hlen, hlast, hset⟩ := hreq
  rw [← hlen] at hlt hf ⊢
  rw [← hlast] at hf ⊢
  have v : e.node.Shows (h.log i) := r.shows
  have hle : e.node.snapshotIndex ≤ s.length := Nat.le_trans r.snapshot_le (Nat.le_of_lt hlt)
  have hiff := r.termAt_snapshot ok hset hlt
  have hmax : max e.node.lastApplied s.length = s.length := Nat.max_eq_right (Nat.le_of_lt hlt)
  have hcore : ∀ log', (e.node.compactThrough s.length (lastTerm s) (some c.members)).log = log' →
      (((e.store f).adoptSnapshot req).store fun st =>
        st.saveSnapshot s.length (lastTerm s) (max e.node.lastApplied s.length)
          (some (req.config.getD []))).core
      = { e.core with
          commitIndex := max e.core.commitIndex s.length, lastApplied := s.length, log := log'
          snapshotIndex := s.length, snapshotTerm := lastTerm s
          storage := (f e.storage).saveSnapshot s.length (lastTerm s) s.length
            (some c.members) } := by
    intro log' hlog
    rw [hmax, hconfig]
    have hc : e.node.snapshotConfig = some c.members := r.config
    simp only [Engine.core, Engine.store, Engine.adoptSnapshot, RaftNode.adoptSnapshot, hconfig,
      ← hlen, ← hlast, hmax, hlog, hc]
    rfl
  split at hf
  · -- the log goes on after the snapshot
    rename_i ht
    subst hf
    have hlog := e.node.compactThrough_log (some c.members) hle ht
    unfold Rel
    rw [hcore _ hlog]
    refine r.install ok cl hset hterm hrole hfree ?_ ?_
    · rw [overwrite_log, if_pos (hiff.mp ht), ← hlog]
      exact v.compact (some c.members) ht
    · have hst : Stored (e.core.withLog e.node.log e.storage) := r.stored
      exact Stored.snapshot hst hle (Nat.le_max_right _ _) r.config
  · -- the log is thrown away
    rename_i ht
    subst hf
    have hlog := e.node.compactThrough_nil (some c.members) ht
    unfold Rel
    rw [hcore _ hlog]
    refine r.install ok cl hset hterm hrole hfree ?_ ?_
    · rw [overwrite_log, if_neg (fun hp => ht (hiff.mpr hp)), ← hlog]
      exact RaftNode.Shows.replace e.node (some c.members) ht
    · have hst : Stored (e.core.withLog [] (e.storage.truncateFrom (e.node.snapshotIndex + 1))) :=
        { r.stored with log := r.stored.log.take 0 }
      have := Stored.snapshot (t := lastTerm s) hst hle
        (Nat.le_max_right e.core.commitIndex s.length) r.config
      rwa [List.drop_nil] at this

theorem wp_installSnapshot (ok : c.HistOk h) (cl : LeadsClean h) (r : NodeRel c h i e.core)
    (hfree : e.applyLock = .free) {y : Install} (henv : y.env.Ok c h)
    (hreq : InstallOk c h y.request) (hterm : y.request.term ≤ e.node.currentTerm)
    (hrole : e.node.state ≠ .follower → y.request.term < e.node.currentTerm)
    (hlt : e.node.lastApplied < y.request.lastIncludedIndex) :
    wp (installSnapshot y) (fun _ => Rel c h i) (fun _ => Rel c h i) e := by
  simp only [installSnapshot, wp_bind, wp_get, wp_ite, wp_modify]
  split
  · rename_i ht
    rw [wp_storageCall_ok (r.faults _)]
    simp only [wp_bind, wp_get, wp_modify]
    rw [wp_storageCall_ok (e := (e.store _).adoptSnapshot y.request) (r.faults _)]
    simp only [wp_bind, wp_modify]
    have := r.adopt ok cl hfree hreq hterm hrole hlt (by rw [if_neg ht])
    exact this.refreshConfig.replyInstall henv
  · rename_i ht
    rw [wp_storageCall_ok (e := e.adoptSnapshot y.request) (r.faults _)]
    simp only [wp_bind, wp_modify]
    have := r.adopt ok cl hfree hreq hterm hrole hlt (f := id)
      (by rw [if_pos (Decidable.not_not.mp ht)])
    exact this.refreshConfig.replyInstall henv

theorem wp_finishInstall (he : Rel c h₀ i e) (restored : Bool) :
    wp (finishInstall restored) (fun _ => Rel c h₀ i) (fun _ => Rel c h₀ i) e := by
  simp only [finishInstall, wp_bind, wp_get]
  split
  · rename_i y hlock
    simp only [wp_bind, wp_ite, wp_modify, wp_pure]
    obtain ⟨h, g, ok, cl, r⟩ := he
    have hmem : y ∈ e.core.pending := Core.mem_pending.mpr (Or.inl hlock)
    have hfree : NodeRel c h i (e.setLock .free).core :=
      r.setQueues (fun _ _ hl => by cases hl) (fun _ hl => by cases hl)
        (fun z hz => Or.inl <| Core.mem_pending.mpr <| (Core.mem_pending.mp hz).imp
          (fun hl => by cases hl) id)
        (fun _ hy => Or.inl hy) (fun _ hy => Or.inl hy) fun _ hp => Or.inl hp
    split
    · obtain ⟨henv, hreq⟩ := r.queues.pending y hmem
      obtain ⟨hterm, hrole, -⟩ := r.pending y hmem
      exact wp_mono (wp_installSnapshot ok cl hfree rfl henv hreq hterm hrole (r.installing y hlock))
        (fun _ _ he' => Evolves.trans g he') fun _ _ he' => Evolves.trans g he'
    · exact Evolves.trans g (Evolves.refl ok cl hfree)
  · exact he

end KvCache
