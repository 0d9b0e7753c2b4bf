import KvCache.EngineThreads

/-!
# What only grows while a process runs

Within one process of a node the term, the commit index, what is applied and
the counters that number calls and requests only grow, and a node leads a
term only if it stood in that term (`Ahead`). All sections but the
constructor do this. Most of them, in addition, leave the reads alone, note
no answer of a peer and put nothing on the wire that is numbered out of turn
(`Plain`); the few sections that number requests, note answers or carry on
reads are treated where they matter.

None of this depends on which storage calls raise.
-/

namespace KvCache

open StateWp Engine

/-! ## Storage calls -/

theorem wp_storageCall {k : StorageCall} {f : MemoryRaftStorage → MemoryRaftStorage} {e : Engine}
    {Q : Unit → Engine → Prop} {R : EngineError → Engine → Prop} :
    wp (storageCall k f) Q R e ↔
      if e.raises k then R .storage (e.useFault k) else Q () ((e.useFault k).store f) := by
  simp only [storageCall, wp_bind, wp_get, wp_ite, wp_set, wp_throw]

/-! ## Committing -/

theorem scanCommit_spec {e : Engine} {k j : Nat} (hk : e.scanCommit k = some j) :
    e.node.commitIndex < j ∧ j ≤ k ∧ e.node.termAt j = some e.node.currentTerm ∧
      e.majority ≤ e.replicas j := by
  induction k with
  | zero => simp [scanCommit] at hk
  | succ k ih =>
      rw [scanCommit] at hk
      split at hk
      · cases hk
      · split at hk
        · cases hk
        · rename_i h1 h2
          split at hk
          · rename_i h3
            obtain rfl := Option.some.inj hk
            exact ⟨Nat.lt_of_not_le h1, Nat.le_refl _, Decidable.not_not.mp h2, h3⟩
          · obtain ⟨h4, h5, h6⟩ := ih hk
            exact ⟨h4, Nat.le_succ_of_le h5, h6⟩

/-! ## The pace of a node -/

/-- Where a node stands. -/
structure Pace where
  settings : Settings
  epoch : Nat
  term : Nat
  state : RaftState
  commit : Nat
  applied : Nat
  ledTerm : Nat
  sendSeq : Nat
  nextCall : Nat
  acks : Dict NodeId Nat
  reads : List ReadCall
  outbox : List Packet

def Engine.pace (e : Engine) : Pace where
  settings := e.settings
  epoch := e.epoch
  term := e.node.currentTerm
  state := e.node.state
  commit := e.node.commitIndex
  applied := e.node.lastApplied
  ledTerm := e.ledTerm
  sendSeq := e.sendSeq
  nextCall := e.nextCall
  acks := e.lastAckSeq
  reads := e.reads
  outbox := e.outbox

/-- `y` is a later state of the same process. -/
structure Ahead (x y : Pace) : Prop where
  settings : y.settings = x.settings
  epoch : y.epoch = x.epoch
  term : x.term ≤ y.term
  role : y.term = x.term → y.state = x.state ∨ y.state = .follower ∨ x.state = .candidate
  commit : x.commit ≤ y.commit
  applied : x.applied ≤ y.applied
  led : y.ledTerm = x.ledTerm ∨ x.term ≤ y.ledTerm
  sendSeq : x.sendSeq ≤ y.sendSeq
  nextCall : x.nextCall ≤ y.nextCall

theorem Ahead.refl (x : Pace) : Ahead x x :=
  ⟨rfl, rfl, Nat.le_refl _, fun _ => Or.inl rfl, Nat.le_refl _, Nat.le_refl _, Or.inl rfl,
    Nat.le_refl _, Nat.le_refl _⟩

theorem Ahead.trans {x y z : Pace} (a : Ahead x y) (b : Ahead y z) : Ahead x z where
  settings := b.settings.trans a.settings
  epoch := b.epoch.trans a.epoch
  term := a.term.trans b.term
  role ht := by
    have hy : y.term = x.term := Nat.le_antisymm (ht ▸ b.term) a.term
    rcases b.role (ht.trans hy.symm) with h | h | h
    · exact h ▸ a.role hy
    · exact Or.inr (Or.inl h)
    · rcases a.role hy with h' | h' | h'
      · exact Or.inr (Or.inr (h'.symm.trans h))
      · rw [h'] at h
        cases h
      · exact Or.inr (Or.inr h')
  commit := a.commit.trans b.commit
  applied := a.applied.trans b.applied
  led := by
    rcases b.led with h | h
    · exact h ▸ a.led
    · exact Or.inr (a.term.trans h)
  sendSeq := a.sendSeq.trans b.sendSeq
  nextCall := a.nextCall.trans b.nextCall

/-- What a section that numbers no request puts on the wire: calls of its
process with a number given before, and replies that name the term. -/
def Packet.Plain (x : Pace) : Packet → Prop
  | .call env =>
    env.src = x.settings.nodeId ∧ env.epoch = x.epoch ∧
      match env.call with
      | .appendEntries _ _ seq => seq ≤ x.sendSeq
      | .installSnapshot _ t => t.seq ≤ x.sendSeq
      | .readIndex _ _ => False
      | _ => True
  | .reply _ response =>
    match response with
    | .appendEntries r => x.term ≤ r.term
    | .installSnapshot r => x.term ≤ r.term
    | .readIndex _ => False
    | _ => True

/-- A section that leaves reads and answers alone. -/
structure Plain (x y : Pace) : Prop extends Ahead x y where
  seq : y.sendSeq = x.sendSeq
  acks : ∀ p s, y.acks.get? p = some s → x.acks.get? p = some s
  reads : y.reads = x.reads
  outbox : ∀ p ∈ y.outbox, p ∈ x.outbox ∨ p.Plain x

namespace Plain

theorem refl (x : Pace) : Plain x x :=
  { Ahead.refl x with
    seq := rfl
    acks := fun _ _ h => h
    reads := rfl
    outbox := fun _ h => Or.inl h }

theorem packet {x y : Pace} (a : Plain x y) {p : Packet} (hp : p.Plain y) : p.Plain x := by
  unfold Packet.Plain at hp ⊢
  cases p with
  | call env =>
      rw [a.settings, a.epoch, a.seq] at hp
      exact hp
  | reply env response =>
      cases response with
      | appendEntries r => exact a.term.trans hp
      | installSnapshot r => exact a.term.trans hp
      | readIndex r => exact hp
      | requestVote r => trivial
      | timeoutNow r => trivial

theorem trans {x y z : Pace} (a : Plain x y) (b : Plain y z) : Plain x z :=
  { a.toAhead.trans b.toAhead with
    seq := b.seq.trans a.seq
    acks := fun p s h => a.acks p s (b.acks p s h)
    reads := b.reads.trans a.reads
    outbox := fun p h => (b.outbox p h).elim (a.outbox p) fun h' => Or.inr (a.packet h') }

variable {x : Pace} {e e' : Engine}

/-- A change of something else. -/
theorem frame (h : Plain x e.pace) (he : e'.pace = e.pace) : Plain x e'.pace := he ▸ h

theorem send (h : Plain x e.pace) {p : Packet} (hp : p.Plain x) : Plain x (e.send p).pace :=
  { h with
    outbox := fun q hq => by
      rcases List.mem_append.mp hq with hq | hq
      · exact h.outbox q hq
      · exact Or.inr (List.mem_singleton.mp hq ▸ hp) }

end Plain

section Frames

variable (e : Engine)

@[simp] theorem pace_useFault (k : StorageCall) : (e.useFault k).pace = e.pace := rfl

@[simp] theorem pace_store (f : MemoryRaftStorage → MemoryRaftStorage) :
    (e.store f).pace = e.pace := rfl

@[simp] theorem pace_resetElectionTimer : e.resetElectionTimer.pace = e.pace := rfl

@[simp] theorem pace_followLeader (l : NodeId) (a : String) :
    (e.followLeader l a).pace = e.pace := rfl

@[simp] theorem pace_extendLog (es : List LogEntry) : (e.extendLog es).pace = e.pace := rfl

@[simp] theorem pace_cutLog (k : Nat) : (e.cutLog k).pace = e.pace := rfl

@[simp] theorem pace_castVote (d : NodeId) : (e.castVote d).pace = e.pace := rfl

@[simp] theorem pace_startReplicator (p : NodeId) : (e.startReplicator p).pace = e.pace := by
  unfold Engine.startReplicator
  split
  · rfl
  · split <;> rfl

@[simp] theorem pace_startReplicators : e.startReplicators.pace = e.pace := by
  unfold Engine.startReplicators
  generalize e.targets.keys = ps
  induction ps generalizing e with
  | nil => rfl
  | cons p ps ih => rw [List.foldl_cons, ih, pace_startReplicator]

@[simp] theorem pace_refreshConfig : e.refreshConfig.pace = e.pace := by
  simp only [Engine.refreshConfig]
  split
  · rfl
  · split
    · exact pace_startReplicators _
    · rfl

@[simp] theorem pace_restartReplicators : e.restartReplicators.pace = e.pace :=
  pace_startReplicators _

@[simp] theorem pace_dropReplicator (p : NodeId) (w : Nat) :
    (e.dropReplicator p w).pace = e.pace := by
  unfold Engine.dropReplicator
  split <;> rfl

@[simp] theorem pace_noteMatch (p : NodeId) (k : Nat) : (e.noteMatch p k).pace = e.pace := rfl

@[simp] theorem pace_backUp (p : NodeId) (k l : Nat) : (e.backUp p k l).pace = e.pace := rfl

@[simp] theorem pace_compact (k t : Nat) (ms : Option (List Member)) :
    (e.compact k t ms).pace = e.pace := rfl

end Frames

/-! ## Role changes -/

section Sections

variable {x : Pace} {e : Engine}

theorem Plain.enterTerm (h : Plain x e.pace) {t : Nat} (ht : e.node.currentTerm < t) :
    Plain x (e.enterTerm t).pace :=
  have hx : x.term < t := Nat.lt_of_le_of_lt h.term ht
  { h with
    term := Nat.le_of_lt hx
    role := fun heq => absurd heq (Nat.ne_of_gt hx) }

theorem Plain.stepDown (h : Plain x e.pace) : Plain x e.stepDown.pace := by
  have : e.stepDown.pace = { e.pace with state := .follower } := by
    unfold Engine.stepDown
    split <;> rfl
  rw [this]
  exact { h with role := fun _ => Or.inr (Or.inl rfl) }

theorem Plain.advanceCommitIndex (h : Plain x e.pace) : Plain x e.advanceCommitIndex.pace := by
  unfold Engine.advanceCommitIndex
  split
  · exact h
  · split
    · rename_i k hk
      exact { h with commit := h.commit.trans (Nat.le_of_lt (scanCommit_spec hk).1) }
    · exact h

/-- Taking office needs a candidate, or a term that began after `x`. -/
theorem Plain.takeOffice (h : Plain x e.pace)
    (hs : e.node.currentTerm = x.term → x.state = .candidate) : Plain x e.takeOffice.pace :=
  { h with
    role := fun ht => Or.inr (Or.inr (hs ht))
    led := Or.inr h.term
    acks := fun p s hp => nomatch (show Dict.empty.get? p = some s from hp) }

theorem keeps_storageCall (k : StorageCall) (f : MemoryRaftStorage → MemoryRaftStorage) :
    Keeps (fun e => Plain x e.pace) (storageCall k f) := fun e h => by
  rw [wp_storageCall]
  split
  · exact h
  · exact h

theorem keeps_persistTermAndVote : Keeps (fun e => Plain x e.pace) persistTermAndVote :=
  keeps_bind keeps_get fun _ => keeps_storageCall _ _

theorem keeps_appendLocal (es : List LogEntry) :
    Keeps (fun e => Plain x e.pace) (appendLocal es) := by
  refine keeps_bind (keeps_modify fun e h => h) fun _ => ?_
  refine keeps_bind (keeps_storageCall _ _) fun _ => ?_
  exact keeps_ite (keeps_modify fun e h => h.frame (pace_refreshConfig e)) (keeps_pure _)

theorem keeps_truncateLocal (k : Nat) : Keeps (fun e => Plain x e.pace) (truncateLocal k) := by
  refine keeps_bind (keeps_modify fun e h => h) fun _ => ?_
  refine keeps_bind (keeps_storageCall _ _) fun _ => ?_
  exact keeps_modify fun e h => h.frame (pace_refreshConfig e)

theorem keeps_becomeFollower (t : Nat) : Keeps (fun e => Plain x e.pace) (becomeFollower t) :=
  fun e h => by
    simp only [becomeFollower, wp_bind, wp_get, wp_ite, wp_modify]
    split
    · rename_i ht
      exact wp_mono (keeps_persistTermAndVote _ (h.enterTerm ht)) (fun _ _ h' => h'.stepDown)
        fun _ _ h' => h'
    · exact h.stepDown

theorem plain_becomeLeader (h : Plain x e.pace)
    (hs : e.node.currentTerm = x.term → x.state = .candidate) :
    wp becomeLeader (fun _ e => Plain x e.pace) (fun _ e => Plain x e.pace) e := by
  simp only [becomeLeader, wp_bind, wp_get, wp_modify]
  refine wp_mono (keeps_appendLocal _ _ (h.takeOffice hs)) (fun _ e' h' => ?_) fun _ _ h' => h'
  exact h'.advanceCommitIndex.frame (pace_restartReplicators _)

theorem Plain.sendCall (h : Plain x e.pace) {a : String} {call : Call}
    (hc : match call with
      | .appendEntries _ _ seq => seq ≤ x.sendSeq
      | .installSnapshot _ t => t.seq ≤ x.sendSeq
      | .readIndex _ _ => False
      | _ => True) : Plain x (e.sendCall a call).pace :=
  h.send ⟨congrArg Settings.nodeId h.settings, h.epoch, hc⟩

theorem Plain.callVoters (h : Plain x e.pace) {call : Member → Call}
    (hc : ∀ m, match call m with
      | .appendEntries _ _ seq => seq ≤ x.sendSeq
      | .installSnapshot _ t => t.seq ≤ x.sendSeq
      | .readIndex _ _ => False
      | _ => True) : Plain x (e.callVoters call).pace := by
  unfold Engine.callVoters
  generalize e.voters = ps
  induction ps generalizing e with
  | nil => exact h
  | cons m ps ih => exact ih (h.sendCall (hc m))

theorem keeps_becomeCandidate (transfer : Bool) :
    Keeps (fun e => Plain x e.pace) (becomeCandidate transfer) := fun e h => by
  simp only [becomeCandidate, wp_bind, wp_modify]
  have hx : x.term < e.node.currentTerm + 1 := Nat.lt_succ_of_le h.term
  have hstand : Plain x e.standForElection.pace :=
    { h with
      term := Nat.le_of_lt hx
      role := fun heq => absurd heq (Nat.ne_of_gt hx) }
  have hpersist : wp persistTermAndVote
      (fun _ e' => Plain x e'.pace ∧ e'.node.currentTerm = e.node.currentTerm + 1)
      (fun _ e' => Plain x e'.pace) e.standForElection := by
    simp only [persistTermAndVote, wp_bind, wp_get, wp_storageCall]
    split
    · exact hstand
    · exact ⟨hstand, rfl⟩
  refine wp_mono hpersist (fun _ e' h' => ?_) fun _ _ h' => h'
  simp only [wp_get, wp_ite, wp_bind, wp_modify]
  have hopen : Plain x e'.openBallot.pace := h'.1
  split
  · refine plain_becomeLeader hopen fun heq => ?_
    have ht : e'.node.currentTerm = x.term := heq
    omega
  · exact Plain.callVoters (e := e'.openBallot.resetElectionTimer) hopen fun _ => trivial

theorem keeps_acceptLeader (t : Nat) (l : NodeId) (a : String) :
    Keeps (fun e => Plain x e.pace) (acceptLeader t l a) := fun e h => by
  simp only [acceptLeader, wp_bind, wp_get, wp_ite, wp_modify]
  split
  · exact wp_mono (keeps_becomeFollower t e h) (fun _ _ h' => h') fun _ _ h' => h'
  · exact h

/-! ## Messages -/

theorem keeps_dropConflict (es : List LogEntry) :
    Keeps (fun e => Plain x e.pace) (dropConflict es) := by
  induction es with
  | nil => exact keeps_pure _
  | cons y es ih =>
      intro e h
      simp only [dropConflict, wp_bind, wp_get, wp_ite, wp_pure]
      split
      · exact h
      · split
        · exact wp_mono (keeps_truncateLocal _ e h) (fun _ _ h' => h') fun _ _ h' => h'
        · exact ih e h

theorem keeps_mergeEntries (es : List LogEntry) :
    Keeps (fun e => Plain x e.pace) (mergeEntries es) := fun e h => by
  simp only [mergeEntries, wp_bind]
  refine wp_mono (keeps_dropConflict es e h) (fun new e' h' => ?_) fun _ _ h' => h'
  simp only [wp_ite, wp_pure]
  split
  · exact keeps_appendLocal _ e' h'
  · exact h'

theorem Plain.followCommit (h : Plain x e.pace) (k m : Nat) :
    Plain x (e.followCommit k m).pace := by
  unfold Engine.followCommit
  split
  · exact { h with commit := h.commit.trans (Nat.le_max_left _ _) }
  · exact h

/-- The handlers of calls that are answered at once, with the term of the
node. -/
theorem plain_handleRequestVote (req : RequestVoteRequest) :
    Keeps (fun e => Plain x e.pace) (handleRequestVote req) := fun e h => by
  have hdecide : Keeps (fun e => Plain x e.pace) (decideVote req) := fun e h => by
    simp only [decideVote, wp_bind, wp_get, wp_ite, wp_pure, wp_modify]
    split
    · exact h
    · exact wp_mono (keeps_persistTermAndVote (e.castVote req.candidateId) h) (fun _ _ h' => h')
        fun _ _ h' => h'
  simp only [handleRequestVote, wp_bind, wp_get, wp_ite, wp_pure]
  split
  · exact h
  · split
    · exact h
    · split
      · exact wp_mono (keeps_becomeFollower _ e h) (fun _ e' h' => hdecide e' h') fun _ _ h' => h'
      · exact hdecide e h

theorem plain_handleAppendEntries (h : Plain x e.pace) (req : AppendEntriesRequest) :
    wp (handleAppendEntries req) (fun a e' => Plain x e'.pace ∧ x.term ≤ a.term)
      (fun _ e' => Plain x e'.pace) e := by
  simp only [handleAppendEntries, wp_bind, wp_get, wp_ite, wp_pure]
  split
  · exact ⟨h, h.term⟩
  · refine wp_mono (keeps_acceptLeader _ _ _ e h) (fun _ e' h' => ?_) fun _ _ h' => h'
    simp only [wp_bind, wp_get, wp_ite, wp_pure, appendFrom]
    split
    · exact ⟨h', h'.term⟩
    · split
      · exact ⟨h', h'.term⟩
      · refine wp_mono (keeps_mergeEntries _ e' h') (fun _ e₂ h₂ => ?_) fun _ _ h₂ => h₂
        have := h₂.followCommit req.leaderCommit
          ((e'.node.skipCovered req).2.1 + (e'.node.skipCovered req).1.length)
        exact ⟨this, this.term⟩

theorem plain_handleInstallSnapshot (h : Plain x e.pace) (env : Envelope)
    (req : InstallSnapshotRequest) :
    wp (handleInstallSnapshot env req)
      (fun a e' => Plain x e'.pace ∧ ∀ r, a = some r → x.term ≤ r.term)
      (fun _ e' => Plain x e'.pace) e := by
  simp only [handleInstallSnapshot, wp_bind, wp_get, wp_ite, wp_pure]
  have hsome : ∀ {e' : Engine} {b : Bool}, Plain x e'.pace →
      ∀ r, some ({ term := e'.node.currentTerm, success := b } : InstallSnapshotResponse) = some r →
        x.term ≤ r.term := fun h' r hr => Option.some.inj hr ▸ h'.term
  split
  · exact ⟨h, hsome h⟩
  · refine wp_mono (keeps_acceptLeader _ _ _ e h) (fun _ e' h' => ?_) fun _ _ h' => h'
    simp only [wp_bind, wp_get, wp_ite, wp_pure]
    split
    · exact ⟨h', hsome h'⟩
    · split
      · exact ⟨h', hsome h'⟩
      · simp only [wp_ite, wp_bind, wp_modify, wp_pure]
        split
        · exact ⟨h', fun r hr => by cases hr⟩
        · exact ⟨h', hsome h'⟩

theorem plain_handleTimeoutNow (req : TimeoutNowRequest) :
    Keeps (fun e => Plain x e.pace) (handleTimeoutNow req) := fun e h => by
  simp only [handleTimeoutNow, wp_bind, wp_get, wp_ite, wp_pure]
  split
  · exact wp_mono (keeps_becomeCandidate true e h) (fun _ _ h' => h') fun _ _ h' => h'
  · exact h

/-- Every call but ReadIndex. -/
theorem plain_handleRpc (h : Plain x e.pace) {env : Envelope}
    (hcall : ∀ r k, env.call ≠ .readIndex r k) :
    wp (handleRpc env) (fun _ e' => Plain x e'.pace) (fun _ e' => Plain x e'.pace) e := by
  unfold handleRpc
  split
  · simp only [wp_bind]
    exact wp_mono (plain_handleRequestVote _ e h) (fun _ _ h' => h'.send trivial) fun _ _ h' => h'
  · simp only [wp_bind]
    exact wp_mono (plain_handleRequestVote _ e h) (fun _ _ h' => h'.send trivial) fun _ _ h' => h'
  · simp only [wp_bind]
    exact wp_mono (plain_handleAppendEntries h _) (fun _ _ h' => h'.1.send h'.2) fun _ _ h' => h'
  · simp only [wp_bind]
    refine wp_mono (plain_handleInstallSnapshot h _ _) (fun a e' h' => ?_) fun _ _ h' => h'
    split
    · exact h'.1.send (h'.2 _ rfl)
    · exact h'.1
  · simp only [wp_bind]
    exact wp_mono (plain_handleTimeoutNow _ e h) (fun _ _ h' => h'.send trivial) fun _ _ h' => h'
  · rename_i r k hc
    exact absurd hc (hcall r k)

/-! ## Replies -/

theorem keeps_preVoteReply (peer : NodeId) (round : Nat) (response : RequestVoteResponse) :
    Keeps (fun e => Plain x e.pace) (preVoteReply peer round response) := fun e h => by
  simp only [preVoteReply, wp_bind, wp_get, wp_ite, wp_pure, wp_modify]
  split
  · exact keeps_becomeFollower _ e h
  · split
    · exact h
    · split
      · exact keeps_becomeCandidate false (e.addGrant peer) h
      · exact h

theorem plain_requestVoteReply (peer : NodeId) (request : RequestVoteRequest)
    (response : RequestVoteResponse) :
    wp (requestVoteReply peer request response)
      (fun _ e' => Plain e.pace e'.pace) (fun _ e' => Plain e.pace e'.pace) e := by
  have h := Plain.refl e.pace
  simp only [requestVoteReply, wp_bind, wp_get, wp_ite, wp_pure, wp_modify]
  split
  · exact keeps_becomeFollower _ e h
  · split
    · exact h
    · rename_i hn
      simp only [not_or, Decidable.not_not] at hn
      split
      · exact plain_becomeLeader (e := e.addVote peer) h fun _ => hn.1
      · exact h

/-- A leader notes the answer of a peer to a request of its term. -/
structure Noted (e : Engine) (peer : NodeId) (seq term answer : Nat) (e' : Engine) : Prop where
  leads : e.node.state = .leader
  term : e.node.currentTerm = term
  answer : answer ≤ e.node.currentTerm
  plain : Plain (e.noteContact peer seq).pace e'.pace

theorem noted_appendEntriesReply (peer : NodeId) (request : AppendEntriesRequest) (seq : Nat)
    (response : AppendEntriesResponse) :
    wp (appendEntriesReply peer request seq response)
      (fun _ e' => Plain e.pace e'.pace ∨ Noted e peer seq request.term response.term e')
      (fun _ e' => Plain e.pace e'.pace) e := by
  have h := Plain.refl e.pace
  simp only [appendEntriesReply, wp_bind, wp_get, wp_ite, wp_pure, wp_modify]
  split
  · exact wp_mono (keeps_becomeFollower _ e h) (fun _ _ h' => Or.inl h') fun _ _ h' => h'
  · rename_i hle
    split
    · exact Or.inl h
    · rename_i hn
      simp only [not_or, Decidable.not_not] at hn
      have hc := Plain.refl (e.noteContact peer seq).pace
      split
      · exact Or.inr ⟨hn.1, hn.2, Nat.le_of_not_lt hle,
          Plain.advanceCommitIndex (e := (e.noteContact peer seq).noteMatch _ _) hc⟩
      · exact Or.inr ⟨hn.1, hn.2, Nat.le_of_not_lt hle, hc⟩

theorem Noted.ahead {peer : NodeId} {seq term answer : Nat} {e' : Engine}
    (h : Noted e peer seq term answer e') : Ahead e.pace e'.pace := { h.plain.toAhead with }

/-- The next chunk keeps the number of the transfer. -/
theorem noted_installSnapshotReply (request : InstallSnapshotRequest) (transfer : Transfer)
    (response : InstallSnapshotResponse) :
    wp (installSnapshotReply request transfer response)
      (fun _ e' => Ahead e.pace e'.pace ∧ (transfer.seq ≤ e.sendSeq →
        Plain e.pace e'.pace ∨ Noted e transfer.peer transfer.seq transfer.term response.term e'))
      (fun _ e' => Plain e.pace e'.pace) e := by
  have h := Plain.refl e.pace
  simp only [installSnapshotReply, wp_bind, wp_get, wp_ite, wp_pure, wp_modify]
  split
  · exact wp_mono (keeps_becomeFollower _ e h) (fun _ _ h' => ⟨h'.toAhead, fun _ => Or.inl h'⟩)
      fun _ _ h' => h'
  · rename_i hle
    split
    · exact ⟨h.toAhead, fun _ => Or.inl h⟩
    · rename_i hn
      simp only [not_or, Decidable.not_not] at hn
      have hc := Plain.refl (e.noteContact transfer.peer transfer.seq).pace
      have hnote : ∀ {e' : Engine}, Plain (e.noteContact transfer.peer transfer.seq).pace e'.pace →
          Noted e transfer.peer transfer.seq transfer.term response.term e' := fun hp =>
        ⟨hn.1, hn.2, Nat.le_of_not_lt hle, hp⟩
      split
      · split
        · exact ⟨(hnote hc).ahead, fun _ => Or.inr (hnote hc)⟩
        · exact ⟨{ h.toAhead with }, fun hseq => Or.inr (hnote (hc.sendCall hseq))⟩
      · exact ⟨(hnote hc).ahead, fun _ => Or.inr (hnote hc)⟩

/-! ## Threads -/

theorem keeps_startElection (generation : Option Nat) :
    Keeps (fun e => Plain x e.pace) (startElection generation) := fun e h => by
  simp only [startElection, wp_bind, wp_get, wp_ite, wp_pure, wp_modify]
  split
  · exact h
  · split
    · exact h
    · split
      · exact keeps_becomeCandidate false e h
      · exact Plain.callVoters (e := { e.resetElectionTimer with grants := [e.nodeId] }) h
          fun _ => trivial

theorem keeps_checkQuorum (term : Nat) :
    Keeps (fun e => Plain x e.pace) (checkQuorum term) := fun e h => by
  simp only [checkQuorum, wp_bind, wp_get, wp_ite, wp_pure]
  split
  · exact keeps_becomeFollower _ e h
  · exact h

theorem keeps_start : Keeps (fun e => Plain x e.pace) start := fun e h => by
  simp only [start, wp_bind, wp_get, wp_ite, wp_pure, wp_modify]
  split
  · split
    · exact keeps_startElection none { e with running := true } h
    · exact h
  · exact h

theorem keeps_replicate (peer : NodeId) (term wakeup : Nat) :
    Keeps (fun e => Plain x e.pace) (replicate peer term wakeup) := fun e h => by
  simp only [replicate, wp_bind, wp_get]
  have hdrop := h.frame (pace_dropReplicator e peer wakeup)
  split
  · exact hdrop
  · simp only [wp_ite, wp_modify]
    split
    · exact hdrop
    · split
      · exact h
      · simp only [wp_ite, wp_modify]
        split
        · exact h
        · exact h

/-- A request gets the next number and is sent. -/
theorem plain_sendNext (k : Nat) :
    wp (sendNext k)
      (fun _ e' => Plain e.pace e'.pace ∨ Plain e.nextSendSeq.pace e'.pace)
      (fun _ e' => Plain e.pace e'.pace) e := by
  have h := Plain.refl e.nextSendSeq.pace
  simp only [sendNext, wp_bind, wp_get]
  split
  · exact Or.inr (Plain.sendCall (e := (e.pull k).nextSendSeq) h (Nat.le_refl _))
  · exact Or.inr (Plain.sendCall (e := (e.pull k).nextSendSeq) h (Nat.le_refl _))
  · exact Or.inl (Plain.refl _)

theorem keeps_writeSnapshot (k : Nat) (file : List UInt8) :
    Keeps (fun e => Plain x e.pace) (writeSnapshot k file) := fun e h => by
  simp only [writeSnapshot, wp_bind, wp_get]
  split
  · simp only [wp_bind, wp_ite, wp_modify, wp_pure]
    split
    · exact h
    · exact h
  · exact h

theorem keeps_finishTransfer (k : Nat) :
    Keeps (fun e => Plain x e.pace) (finishTransfer k) := fun e h => by
  simp only [finishTransfer, wp_bind, wp_get]
  split
  · simp only [wp_bind, wp_ite, wp_modify, wp_pure]
    split
    · exact Plain.advanceCommitIndex (e := (e.dropTransfer k).noteMatch _ _) h
    · exact h
  · exact h

theorem Plain.replyInstall (h : Plain x e.pace) (y : Install) : Plain x (e.replyInstall y).pace :=
  h.send h.term

theorem keeps_beginInstall (k : Nat) :
    Keeps (fun e => Plain x e.pace) (beginInstall k) := fun e h => by
  simp only [beginInstall, wp_bind, wp_get]
  split
  · simp only [wp_bind, wp_ite, wp_modify]
    split
    · exact Plain.replyInstall (e := e.dropInstall k) h _
    · exact h
  · exact h

theorem keeps_installSnapshot (y : Install) :
    Keeps (fun e => Plain x e.pace) (installSnapshot y) := fun e h => by
  have hrest : ∀ e' : Engine, Plain x e'.pace → Plain x (e'.adoptSnapshot y.request).pace := fun e' h' =>
    { h' with
      commit := h'.commit.trans (Nat.le_max_left _ _)
      applied := h'.applied.trans (Nat.le_max_left _ _) }
  simp only [installSnapshot, wp_bind, wp_get, wp_ite, wp_modify]
  have hsave : ∀ e' : Engine, Plain x e'.pace → wp (storageCall .saveSnapshot fun s =>
      s.saveSnapshot (e'.adoptSnapshot y.request).node.snapshotIndex
        (e'.adoptSnapshot y.request).node.snapshotTerm
        (e'.adoptSnapshot y.request).node.lastApplied (some (y.request.config.getD [])))
      (fun _ e₂ => Plain x (e₂.refreshConfig.replyInstall y).pace) (fun _ e₂ => Plain x e₂.pace)
      (e'.adoptSnapshot y.request) := fun e' h' =>
    wp_mono (keeps_storageCall _ _ _ (hrest e' h'))
      (fun _ e₂ h₂ => (h₂.frame (pace_refreshConfig e₂)).replyInstall y) fun _ _ h₂ => h₂
  split
  · refine wp_mono (keeps_storageCall _ _ e h) (fun _ e' h' => ?_) fun _ _ h' => h'
    simp only [wp_bind, wp_get, wp_modify]
    exact hsave e' h'
  · exact hsave e h

theorem keeps_finishInstall (restored : Bool) :
    Keeps (fun e => Plain x e.pace) (finishInstall restored) := fun e h => by
  simp only [finishInstall, wp_bind, wp_get]
  split
  · simp only [wp_bind, wp_ite, wp_modify, wp_pure]
    split
    · exact keeps_installSnapshot _ (e.setLock .free) h
    · exact h
  · exact h

theorem keeps_beginApply : Keeps (fun e => Plain x e.pace) beginApply := fun e h => by
  simp only [beginApply, wp_bind, wp_get]
  split
  · simp only [wp_ite, wp_modify, wp_pure]
    split
    · exact h
    · exact h
  · exact h

theorem keeps_maybeSnapshot (threshold : Nat) :
    Keeps (fun e => Plain x e.pace) (maybeSnapshot threshold) := fun e h => by
  simp only [maybeSnapshot, wp_bind, wp_get, wp_ite, wp_pure, wp_modify]
  split
  · exact h
  · exact keeps_storageCall _ _ (e.compact _ _ _) h

theorem keeps_finishApply (result : Result) :
    Keeps (fun e => Plain x e.pace) (finishApply result) := fun e h => by
  simp only [finishApply, wp_bind, wp_get]
  split
  · rename_i k y hlock
    simp only [wp_bind, wp_get, wp_ite, wp_modify]
    have happ : Plain x (e.noteApplied k y.term (y.command.applied result)).pace :=
      { h with applied := h.applied.trans (Nat.le_max_left _ _) }
    split
    · exact wp_mono (keeps_becomeFollower _ _ happ) (fun _ e' h' => keeps_maybeSnapshot _ e' h')
        fun _ _ h' => h'
    · exact keeps_maybeSnapshot _ _ happ
  · exact h

theorem keeps_stopApply : Keeps (fun e => Plain x e.pace) stopApply := fun e h => by
  simp only [stopApply, wp_bind, wp_get]
  split
  · simp only [wp_ite, wp_modify, wp_pure]
    split
    · exact h
    · exact h
  · exact h

/-! ## Client calls -/

theorem keeps_startProposal (command : Command) (username requestId : String) (timeout : Nat) :
    Keeps (fun e => Plain x e.pace) (startProposal command username requestId timeout) :=
  fun e h => by
    simp only [startProposal, propose, wp_bind, wp_get, wp_ite, wp_throw]
    split
    · exact h
    · split
      · exact h
      · refine wp_mono (keeps_appendLocal _ e h) (fun _ e' h' => ?_) fun _ _ h' => h'
        have hc := Plain.advanceCommitIndex
          (e := e'.addWaiter (e.newEntry command username requestId).index) h'
        exact { hc with nextCall := hc.nextCall.trans (Nat.le_succ _) }

theorem keeps_wakeProposal (id : Nat) :
    Keeps (fun e => Plain x e.pace) (wakeProposal id) := fun e h => by
  simp only [wakeProposal, wp_bind, wp_get]
  split
  · split
    · exact h
    · exact h
    · exact h
  · exact h

section Changes

variable (d : ConfigChange)

theorem pace_catchUpLearner (e : Engine) (m : Member) (term : Nat) :
    (e.catchUpLearner d m term).pace = e.pace := by
  unfold Engine.catchUpLearner
  split
  · split <;> rfl
  · rfl

theorem pace_waitConfigIdle (e : Engine) (term : Nat) :
    (e.waitConfigIdle d term).pace = e.pace := by
  unfold Engine.waitConfigIdle Engine.changeIdle
  split
  · split <;> rfl
  · split
    · rw [pace_catchUpLearner, pace_startReplicator]
      rfl
    · rfl

theorem pace_forgetLearner (e : Engine) (ch : Change) : (e.forgetLearner ch).pace = e.pace := by
  unfold Engine.forgetLearner
  split
  · split <;> rfl
  · rfl

end Changes

theorem keeps_changeMembership (ch : Change) (deadline : Nat) :
    Keeps (fun e => Plain x e.pace) (changeMembership ch deadline) := fun e h => by
  simp only [changeMembership, wp_modify]
  split
  · exact h
  · split
    · exact h
    · split
      · exact h
      · exact h.frame (pace_waitConfigIdle _ e _)

theorem keeps_wakeChange : Keeps (fun e => Plain x e.pace) wakeChange := fun e h => by
  simp only [wakeChange, wp_bind, wp_get]
  split
  · exact h
  · rename_i d _
    split
    · exact h.frame (pace_waitConfigIdle d e _)
    · split
      · exact h.frame (pace_catchUpLearner d e _ _)
      · exact h
    · simp only [proposeConfig, wp_bind, wp_get, wp_tryCatch]
      exact wp_mono (keeps_startProposal _ _ _ _ e h) (fun _ _ h' => h') fun _ _ h' => h'
    · split
      · split
        · exact h
        · exact h
        · exact h
      · exact h
    · exact h.frame (pace_forgetLearner e d.change)
    · exact h
    · exact h

theorem keeps_transferLeadership (timeout : Nat) :
    Keeps (fun e => Plain x e.pace) (transferLeadership timeout) := fun e h => by
  simp only [transferLeadership, wp_bind, wp_get]
  split
  · simp only [wp_ite, wp_modify, wp_pure]
    split
    · exact { h with nextCall := h.nextCall.trans (Nat.le_succ _) }
    · exact h
  · exact h

theorem keeps_wakeHandover (id : Nat) :
    Keeps (fun e => Plain x e.pace) (wakeHandover id) := fun e h => by
  simp only [wakeHandover, wp_modify]
  split
  · rename_i d _
    unfold Engine.stepHandover
    split
    · split
      · split
        · exact h
        · exact h
      · split
        · exact Plain.sendCall (e := e.handoverPhase d .awaitReply) h trivial
        · exact h
    · exact h
    · split
      · exact h
      · exact h
    · exact h
    · exact h
  · exact h

/-! ## Reads -/

/-- Reads and packets are not part of what `Ahead` compares. -/
theorem Ahead.setReads (h : Ahead x e.pace) (reads : List ReadCall) (outbox : List Packet) :
    Ahead x { e.pace with reads := reads, outbox := outbox } := { h with }

theorem ahead_confirmed (h : Ahead x e.pace) (d : ReadCall)
    (out : Except EngineError ReadPhase) : Ahead x (e.confirmed d out).pace := by
  unfold Engine.confirmed
  split
  · split
    · exact h.setReads _ _
    · exact h.setReads _ _
  · exact h.setReads _ _
  · split
    · exact h.setReads _ _
    · exact h.setReads _ _
    · exact h.setReads _ _

theorem ahead_stepRead (h : Ahead x e.pace) (d : ReadCall) : Ahead x (e.stepRead d).pace := by
  unfold Engine.stepRead
  split
  · exact h.setReads _ _
  · exact ahead_confirmed h d _
  · exact ahead_confirmed h d _
  · exact ahead_confirmed h d _
  · simp only [Engine.remoteReadIndex]
    generalize (if e.node.leaderId.isSome then e.leaderAddress else "") = address
    split
    · exact h.setReads _ _
    · exact h.setReads _ _
  · exact h.setReads _ _
  · split
    · exact h.setReads _ _
    · split
      · exact h.setReads _ _
      · exact h
  · exact h
  · exact h

theorem ahead_wakeRead (id : Nat) :
    wp (wakeRead id) (fun _ e' => Ahead e.pace e'.pace) (fun _ e' => Ahead e.pace e'.pace) e := by
  simp only [wakeRead, wp_modify]
  split
  · exact ahead_stepRead (Ahead.refl _) _
  · exact Ahead.refl _

/-! ## One event -/

theorem ahead_handleReply (env : Envelope) (response : Response) :
    wp (handleReply env response)
      (fun _ e' => Ahead e.pace e'.pace) (fun _ e' => Ahead e.pace e'.pace) e := by
  have h := Plain.refl e.pace
  unfold handleReply
  split
  · exact wp_mono (keeps_preVoteReply _ _ _ e h) (fun _ _ h' => h'.toAhead) fun _ _ h' => h'.toAhead
  · exact wp_mono (plain_requestVoteReply _ _ _) (fun _ _ h' => h'.toAhead)
      fun _ _ h' => h'.toAhead
  · exact wp_mono (noted_appendEntriesReply _ _ _ _)
      (fun _ _ h' => h'.elim Plain.toAhead Noted.ahead) fun _ _ h' => h'.toAhead
  · exact wp_mono (noted_installSnapshotReply _ _ _) (fun _ _ h' => h'.1) fun _ _ h' => h'.toAhead
  · exact h.toAhead
  · exact h.toAhead.setReads _ _
  · exact h.toAhead

theorem ahead_handleRpc (env : Envelope) :
    wp (handleRpc env)
      (fun _ e' => Ahead e.pace e'.pace) (fun _ e' => Ahead e.pace e'.pace) e := by
  by_cases hcall : ∃ r k, env.call = .readIndex r k
  · obtain ⟨r, k, hc⟩ := hcall
    simp only [handleRpc, hc]
    exact { Ahead.refl e.pace with nextCall := Nat.le_succ _ }
  · simp only [not_exists] at hcall
    exact wp_mono (plain_handleRpc (Plain.refl _) hcall) (fun _ _ h' => h'.toAhead)
      fun _ _ h' => h'.toAhead

/-- The actions that leave reads and numbers alone. -/
def Action.Steady : Action → Prop
  | .restart | .sendNext _ | .readIndex _ | .wakeRead _ => False
  | _ => True

theorem plain_action {a : Action} (ha : a.Steady) : Plain e.pace (e.step (.act a)).pace := by
  refine (wp_after (P := fun e' : Engine => Plain e.pace e'.pace)).mp ?_
  have h := Plain.refl e.pace
  cases a with
  | tick ms => exact h
  | restart => exact ha.elim
  | start => exact keeps_start e h
  | stop => exact h
  | electionTimeout generation => exact keeps_startElection _ e h
  | checkQuorum term => exact keeps_checkQuorum _ e h
  | replicate peer term wakeup => exact keeps_replicate _ _ _ e h
  | sendNext k => exact ha.elim
  | writeSnapshot k file => exact keeps_writeSnapshot _ _ e h
  | finishTransfer k => exact keeps_finishTransfer _ e h
  | beginInstall k => exact keeps_beginInstall _ e h
  | finishInstall restored => exact keeps_finishInstall _ e h
  | beginApply => exact keeps_beginApply e h
  | finishApply result => exact keeps_finishApply _ e h
  | stopApply => exact keeps_stopApply e h
  | compact threshold => exact keeps_maybeSnapshot _ e h
  | propose text username requestId timeout =>
      simp only [NodeEvent.body, Action.body, wp_bind]
      exact wp_mono (keeps_startProposal _ _ _ _ e h) (fun _ _ h' => h') fun _ _ h' => h'
  | wakeProposal id => exact keeps_wakeProposal _ e h
  | changeMembership change deadline => exact keeps_changeMembership _ _ e h
  | wakeChange => exact keeps_wakeChange e h
  | transferLeadership timeout => exact keeps_transferLeadership _ e h
  | wakeHandover id => exact keeps_wakeHandover _ e h
  | readIndex timeout => exact ha.elim
  | wakeRead id => exact ha.elim

/-- Only a new process can fall behind. -/
theorem ahead_step {ev : NodeEvent} (hev : ev ≠ .act .restart) :
    Ahead e.pace (e.step ev).pace := by
  refine (wp_after (P := fun e' : Engine => Ahead e.pace e'.pace)).mp ?_
  cases ev with
  | receive p =>
      cases p with
      | call env =>
          simp only [NodeEvent.body, receive, wp_bind, wp_get, wp_ite, wp_pure]
          split
          · exact ahead_handleRpc env
          · exact Ahead.refl _
      | reply env response =>
          simp only [NodeEvent.body, receive, wp_bind, wp_get, wp_ite, wp_pure]
          split
          · exact ahead_handleReply env response
          · exact Ahead.refl _
  | act a =>
      by_cases ha : a.Steady
      · exact (wp_after (P := fun e' : Engine => Ahead e.pace e'.pace)).mpr
          (plain_action ha).toAhead
      · cases a with
        | restart => exact absurd rfl hev
        | sendNext k =>
            have hnext : Ahead e.pace e.nextSendSeq.pace :=
              { Ahead.refl e.pace with sendSeq := Nat.le_succ _ }
            exact wp_mono (plain_sendNext k)
              (fun _ _ h' => h'.elim Plain.toAhead fun h' => hnext.trans h'.toAhead)
              fun _ _ h' => h'.toAhead
        | readIndex timeout => exact { Ahead.refl e.pace with nextCall := Nat.le_succ _ }
        | wakeRead id => exact ahead_wakeRead id
        | _ => exact absurd trivial ha

end Sections

end KvCache
