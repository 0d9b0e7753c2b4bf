import KvCache.EngineMoves

/-!
# What counts in an election, and what applies

Elections hang on little: term, vote and role, the election timer's
generation, the yeses and votes collected, and the packets sent. So does the
applier: the apply lock, the last applied index and the snapshot boundary.
`Sight` is this part of an engine. A step changes it by a few deeds, each with
what it takes to do it (`Deed`); everything else a step does leaves it as it
was (`rest`).
-/

namespace KvCache

open StateWp Engine

/-! ## Deeds -/

structure Sight where
  settings : Settings
  epoch : Nat
  running : Bool
  term : Nat
  vote : Option NodeId
  state : RaftState
  generation : Nat
  grants : List NodeId
  votes : List NodeId
  /-- outcomes of the coming calls of `save_term_and_vote` -/
  saves : List Bool
  outbox : List Packet
  lock : ApplyLock
  lastApplied : Nat
  snapshotIndex : Nat
  snapshotTerm : Nat
  snapshotConfig : Option (List Member)

def Engine.sight (e : Engine) : Sight where
  settings := e.settings
  epoch := e.epoch
  running := e.running
  term := e.node.currentTerm
  vote := e.node.votedFor
  state := e.node.state
  generation := e.timerGeneration
  grants := e.grants
  votes := e.votes
  saves := e.faults .saveTermAndVote
  outbox := e.outbox
  lock := e.applyLock
  lastApplied := e.node.lastApplied
  snapshotIndex := e.node.snapshotIndex
  snapshotTerm := e.node.snapshotTerm
  snapshotConfig := e.node.snapshotConfig

/-- A packet that is no call for a vote. -/
def Packet.Neutral : Packet → Prop
  | .call env => ∀ peer request, env.call ≠ .requestVote peer request ∧
      ∀ round, env.call ≠ .preVote peer request round
  | .reply _ _ => True

/-- A call for a vote in `term`. -/
def Packet.Ballot (epoch term : Nat) (p : Packet) : Prop :=
  ∃ env peer request, p = .call env ∧ env.epoch = epoch ∧ env.call = .requestVote peer request ∧
    request.term = term

/-- A call for a pre-vote for `term`, in this round. -/
def Packet.Poll (epoch term round : Nat) (p : Packet) : Prop :=
  ∃ env peer request, p = .call env ∧ env.epoch = epoch ∧
    env.call = .preVote peer request round ∧ request.term = term

/-- The term in the reply to a call. -/
def Call.replyTerm : Call → Response → Option Nat
  | .preVote _ _ _, .requestVote r | .requestVote _ _, .requestVote r => some r.term
  | .appendEntries _ _ _, .appendEntries r => some r.term
  | .installSnapshot _ _, .installSnapshot r => some r.term
  | _, _ => none

/-- The term in a call that node `e` does not brush aside. -/
def Engine.callTerm (e : Engine) : Call → Option Nat
  | .preVote _ request _ | .requestVote _ request =>
    if request.preVote ∨ (¬ request.transfer ∧ e.inLeaderLease) then none else some request.term
  | .appendEntries _ request _ => some request.term
  | .installSnapshot request _ => some request.term
  | .timeoutNow _ _ | .readIndex _ _ => none

/-- The term of the message, where a node takes over one that is higher than
its own. -/
def Engine.heard (e : Engine) : NodeEvent → Option Nat
  | .receive (.call env) => if e.running then e.callTerm env.call else none
  | .receive (.reply env response) =>
    if e.epoch = env.epoch then env.call.replyTerm response else none
  | .act _ => none

/-- Why the node may stand for election: a majority of yeses in the round
under way, an order of the leader, or nobody else to ask. -/
inductive Engine.Stands (e : Engine) (ev : NodeEvent) : Prop
  | round {peer : NodeId} {request : RequestVoteRequest} {response : RequestVoteResponse}
      (ha : ev.Answers e (.preVote peer request e.timerGeneration) (.requestVote response))
      (hg : response.voteGranted = true) (ht : response.term ≤ e.node.currentTerm)
      (hl : e.node.state ≠ .leader) (hm : e.majority ≤ e.countVotes (e.addGrant peer).grants)
  | handover {env : Envelope} {request : TimeoutNowRequest} {handover : Nat} (ha : ev.Calls env)
      (hc : env.call = .timeoutNow request handover) (hr : e.running = true)
      (ht : e.node.currentTerm ≤ request.term) (hm : e.members.contains e.nodeId = true)
      (hl : e.node.state ≠ .leader)
  | alone (ha : ev = .act .start ∧ e.running = false ∧ e.down = false ∨
        ev = .act (.electionTimeout e.timerGeneration) ∧ e.running = true)
      (hl : e.node.state ≠ .leader) (hm : e.members.contains e.nodeId = true) (hv : e.voters = [])

/-- What a step looks at before it changes the term is as the step found it. -/
structure Engine.AsFound (e₀ x : Engine) : Prop where
  settings : x.settings = e₀.settings
  members : x.members = e₀.members
  term : x.node.currentTerm = e₀.node.currentTerm
  saves : x.faults .saveTermAndVote = e₀.faults .saveTermAndVote

theorem Engine.AsFound.rfl {e : Engine} : e.AsFound e := ⟨Eq.refl _, Eq.refl _, Eq.refl _, Eq.refl _⟩

theorem Engine.AsFound.raises {e₀ x : Engine} (h : e₀.AsFound x) :
    x.raises .saveTermAndVote = e₀.raises .saveTermAndVote := by
  unfold Engine.raises
  rw [h.saves]

/-- An election timer, or the start of the node. -/
def NodeEvent.Timer (ev : NodeEvent) : Prop :=
  ev = .act .start ∨ ∃ generation, ev = .act (.electionTimeout generation)

/-- The threads and handlers that move the applied prefix. -/
def NodeEvent.Works (ev : NodeEvent) : Prop :=
  ev = .act .beginApply ∨ (∃ result, ev = .act (.finishApply result)) ∨ ev = .act .stopApply ∨
    (∃ k, ev = .act (.beginInstall k)) ∨ (∃ restored, ev = .act (.finishInstall restored)) ∨
    ∃ threshold, ev = .act (.compact threshold)

/-- One deed in a step that began in `e₀`. -/
inductive Deed (ev : NodeEvent) (e₀ x : Engine) : Engine → Prop
  | rest {y : Engine} (h : y.sight = x.sight) : Deed ev e₀ x y
  | send {y : Engine} {p : Packet} (hp : p.Neutral)
      (h : y.sight = { x.sight with outbox := x.outbox ++ [p] }) : Deed ev e₀ x y
  | power {y : Engine} {running : Bool} (h : y.sight = { x.sight with running := running }) :
      Deed ev e₀ x y
  | bump {y : Engine} (h : y.sight = { x.sight with generation := x.timerGeneration + 1 }) :
      Deed ev e₀ x y
  -- terms and votes
  | adoptTerm {y : Engine} {t : Nat} (hx : e₀.AsFound x) (hh : e₀.heard ev = some t)
      (ht : x.node.currentTerm < t) (hr : x.raises .saveTermAndVote = false)
      (h : y.sight = { x.sight with
        term := t, vote := none, saves := (x.faults .saveTermAndVote).tail
        state := .follower, generation := x.timerGeneration + 1 }) : Deed ev e₀ x y
  | adoptTermFails {y : Engine} {t : Nat} (hx : e₀.AsFound x) (hh : e₀.heard ev = some t)
      (ht : x.node.currentTerm < t) (hr : x.raises .saveTermAndVote = true)
      (h : y.sight = { x.sight with
        term := t, vote := none, saves := (x.faults .saveTermAndVote).tail }) : Deed ev e₀ x y
  | stepDown {y : Engine} (h : y.sight = { x.sight with
        state := .follower, generation := x.timerGeneration + 1 }) : Deed ev e₀ x y
  | vote {y : Engine} {d : NodeId} (hv : x.node.votedFor = none ∨ x.node.votedFor = some d)
      (hr : x.raises .saveTermAndVote = false)
      (h : y.sight = { x.sight with
        vote := some d, saves := (x.faults .saveTermAndVote).tail
        generation := x.timerGeneration + 1 }) : Deed ev e₀ x y
  | voteFails {y : Engine} {d : NodeId} (hv : x.node.votedFor = none ∨ x.node.votedFor = some d)
      (hr : x.raises .saveTermAndVote = true)
      (h : y.sight = { x.sight with
        vote := some d, saves := (x.faults .saveTermAndVote).tail }) : Deed ev e₀ x y
  -- elections
  | openRound {y : Engine} (hev : ev.Timer) (hl : x.node.state ≠ .leader) (ho : x.outbox ⊆ y.outbox)
      (hp : ∀ p ∈ y.outbox, p ∈ x.outbox ∨
        p.Poll x.epoch (x.node.currentTerm + 1) (x.timerGeneration + 1))
      (h : y.sight = { x.sight with
        generation := x.timerGeneration + 1, grants := [x.nodeId], outbox := y.outbox }) :
      Deed ev e₀ x y
  | addGrant {y : Engine} {peer : NodeId} {request : RequestVoteRequest}
      {response : RequestVoteResponse}
      (ha : ev.Answers x (.preVote peer request x.timerGeneration) (.requestVote response))
      (hg : response.voteGranted = true) (hl : x.node.state ≠ .leader)
      (h : y.sight = { x.sight with grants := (x.addGrant peer).grants }) : Deed ev e₀ x y
  | standFails {y : Engine} (hx : e₀.AsFound x) (hw : e₀.Stands ev)
      (hr : x.raises .saveTermAndVote = true)
      (h : y.sight = { x.sight with
        term := x.node.currentTerm + 1, vote := some x.nodeId, state := .candidate
        saves := (x.faults .saveTermAndVote).tail }) : Deed ev e₀ x y
  | stand {y : Engine} (hx : e₀.AsFound x) (hw : e₀.Stands ev)
      (hr : x.raises .saveTermAndVote = false) (ho : x.outbox ⊆ y.outbox)
      (hp : ∀ p ∈ y.outbox, p ∈ x.outbox ∨ p.Ballot x.epoch (x.node.currentTerm + 1))
      (h : y.sight = { x.sight with
        term := x.node.currentTerm + 1, vote := some x.nodeId, state := .candidate
        saves := (x.faults .saveTermAndVote).tail, votes := [x.nodeId]
        generation := x.timerGeneration + 1, outbox := y.outbox }) : Deed ev e₀ x y
  | win {y : Engine} (hx : e₀.AsFound x) (hw : e₀.Stands ev)
      (hr : x.raises .saveTermAndVote = false) (hm : e₀.majority ≤ e₀.countVotes [x.nodeId])
      (h : y.sight = { x.sight with
        term := x.node.currentTerm + 1, vote := some x.nodeId, state := .leader
        saves := (x.faults .saveTermAndVote).tail, votes := [x.nodeId]
        generation := x.timerGeneration + 1 }) : Deed ev e₀ x y
  | addVote {y : Engine} {peer : NodeId} {request : RequestVoteRequest}
      {response : RequestVoteResponse}
      (ha : ev.Answers x (.requestVote peer request) (.requestVote response))
      (hg : response.voteGranted = true) (hc : x.node.state = .candidate)
      (ht : x.node.currentTerm = request.term)
      (h : y.sight = { x.sight with votes := (x.addVote peer).votes }) : Deed ev e₀ x y
  | office {y : Engine} {peer : NodeId} {request : RequestVoteRequest}
      {response : RequestVoteResponse} (hx : x = e₀.addVote peer)
      (ha : ev.Answers e₀ (.requestVote peer request) (.requestVote response))
      (ht : e₀.node.currentTerm = request.term) (hr : response.term ≤ e₀.node.currentTerm)
      (hc : e₀.node.state = .candidate) (hm : e₀.majority ≤ e₀.countVotes x.votes)
      (h : y.sight = { x.sight with
        state := .leader, generation := x.timerGeneration + 1 }) : Deed ev e₀ x y
  -- applying
  | work {y : Engine} (hw : ev.Works)
      (h : y.sight = { x.sight with
        lock := y.applyLock, lastApplied := y.node.lastApplied
        snapshotIndex := y.node.snapshotIndex, snapshotTerm := y.node.snapshotTerm
        snapshotConfig := y.node.snapshotConfig }) : Deed ev e₀ x y

/-- One deed after another, from the start of the step. -/
def Deeds (ev : NodeEvent) (e₀ : Engine) : Engine → Prop := Relation.ReflTransGen (Deed ev e₀) e₀

namespace Deeds

variable {ev : NodeEvent} {e₀ e e' : Engine}

theorem refl : Deeds ev e e := Relation.ReflTransGen.refl

theorem deed (h : Deeds ev e₀ e) (hd : Deed ev e₀ e e') : Deeds ev e₀ e' :=
  Relation.ReflTransGen.tail h hd

/-- Nothing that counts changes. -/
theorem rest (h : Deeds ev e₀ e) (hs : e'.sight = e.sight) : Deeds ev e₀ e' := h.deed (.rest hs)

theorem send (h : Deeds ev e₀ e) {p : Packet} (hp : p.Neutral) : Deeds ev e₀ (e.send p) :=
  h.deed (.send hp rfl)

/-- What every deed keeps. -/
theorem keeps {P : Engine → Prop} (h : Deeds ev e₀ e) (h₀ : P e₀)
    (hd : ∀ x y, Deed ev e₀ x y → P x → P y) : P e := by
  induction h with
  | refl => exact h₀
  | tail _ hxy ih => exact hd _ _ hxy ih

end Deeds

/-! ## What leaves the sight as it is -/

section Sights

variable (e : Engine)

theorem sight_startReplicator (p : NodeId) : (e.startReplicator p).sight = e.sight := by
  obtain ⟨d, h, -⟩ := startReplicator_eq e p
  rw [h]
  rfl

theorem sight_startReplicators : e.startReplicators.sight = e.sight := by
  unfold Engine.startReplicators
  generalize e.targets.keys = ps
  induction ps generalizing e with
  | nil => rfl
  | cons p ps ih => exact (ih (e.startReplicator p)).trans (sight_startReplicator e p)

theorem sight_refreshConfig : e.refreshConfig.sight = e.sight := by
  obtain ⟨d, ms, ls, h, -⟩ := refreshConfig_eq e
  rw [h]
  rfl

theorem sight_advanceCommitIndex : e.advanceCommitIndex.sight = e.sight := by
  obtain ⟨k, h, -⟩ := advanceCommitIndex_eq e
  rw [h]
  rfl

theorem sight_followCommit (c m : Nat) : (e.followCommit c m).sight = e.sight := by
  obtain ⟨k, h, -⟩ := followCommit_eq e c m
  rw [h]
  rfl

theorem sight_stepDown : e.stepDown.sight = { e.sight with
    state := .follower, generation := e.timerGeneration + 1 } := by
  obtain ⟨l, ls, t, h⟩ := stepDown_eq e
  rw [h]
  rfl

/-- Calls to the voters go on the wire, and nothing else changes. -/
theorem sight_callVoters (call : Member → Call) :
    (e.callVoters call).sight = { e.sight with outbox := (e.callVoters call).outbox } ∧
      e.outbox ⊆ (e.callVoters call).outbox ∧
      ∀ p ∈ (e.callVoters call).outbox, p ∈ e.outbox ∨
        ∃ m address, p = .call ⟨e.nodeId, e.epoch, address, call m⟩ := by
  unfold Engine.callVoters
  generalize e.voters = ps
  induction ps generalizing e with
  | nil => exact ⟨rfl, List.Subset.refl _, fun p hp => Or.inl hp⟩
  | cons m ps ih =>
      obtain ⟨h, ho, hp⟩ := ih (e.sendCall m.raftAddress (call m))
      refine ⟨?_, fun p hmem => ho (List.mem_append_left _ hmem), fun p hmem => ?_⟩
      · rw [List.foldl_cons, h]
        rfl
      · rcases hp p hmem with hin | hnew
        · rcases List.mem_append.mp hin with hin | hin
          · exact Or.inl hin
          · exact Or.inr ⟨m, _, List.mem_singleton.mp hin⟩
        · exact Or.inr hnew

end Sights

/-! ## Role changes -/

section Handlers

variable {ev : NodeEvent} {e₀ e : Engine}

theorem sight_appendLocal (s : Sight) (es : List LogEntry) :
    Keeps (fun e => e.sight = s) (appendLocal es) := fun e h => by
  simp only [appendLocal, wp_bind, wp_modify, wp_storageCall]
  split
  · exact h
  · rw [wp_ite]
    split
    · exact (sight_refreshConfig _).trans h
    · exact h

theorem sight_truncateLocal (s : Sight) (k : Nat) :
    Keeps (fun e => e.sight = s) (truncateLocal k) := fun e h => by
  simp only [truncateLocal, wp_bind, wp_modify, wp_storageCall]
  split
  · exact h
  · exact (sight_refreshConfig _).trans h

theorem sight_dropConflict (s : Sight) (es : List LogEntry) :
    Keeps (fun e => e.sight = s) (dropConflict es) := by
  induction es with
  | nil => exact fun e h => h
  | cons y es ih =>
      intro e h
      simp only [dropConflict, wp_bind, wp_get, wp_ite, wp_pure]
      split
      · exact h
      · split
        · exact sight_truncateLocal s _ e h
        · exact ih e h

/-- The entries of a request and its commit index do not count. -/
theorem sight_appendFrom (s : Sight) (req : AppendEntriesRequest) (es : List LogEntry) (k : Nat) :
    Keeps (fun e => e.sight = s) (appendFrom req es k) := fun e h => by
  simp only [appendFrom, mergeEntries, wp_bind]
  refine wp_mono (sight_dropConflict s es e h) (fun rest e' h' => ?_) fun _ _ h' => h'
  split
  · exact wp_mono (sight_appendLocal s rest e' h')
      (fun _ e₂ h₂ => (sight_followCommit e₂ _ _).trans h₂) fun _ _ h₂ => h₂
  · exact (sight_followCommit e' _ _).trans h'

theorem deeds_appendLocal (es : List LogEntry) : Keeps (Deeds ev e₀) (appendLocal es) := fun e h =>
  wp_mono (sight_appendLocal e.sight es e rfl) (fun _ _ hs => h.rest hs) fun _ _ hs => h.rest hs

/-- Either the step begins with this and heard the term, or it is the term
the node is in. -/
theorem deeds_becomeFollower {t : Nat} (h : Deeds ev e₀ e)
    (ht : e.node.currentTerm < t → e₀.AsFound e ∧ e₀.heard ev = some t) :
    wp (becomeFollower t) (fun _ => Deeds ev e₀) (fun _ => Deeds ev e₀) e := by
  simp only [becomeFollower, persistTermAndVote, wp_bind, wp_get, wp_ite, wp_modify,
    wp_storageCall]
  split
  · rename_i hlt
    obtain ⟨hx, hh⟩ := ht hlt
    split
    · rename_i hr
      exact h.deed (.adoptTermFails hx hh hlt hr rfl)
    · rename_i hr
      exact h.deed (.adoptTerm hx hh hlt (Bool.eq_false_of_not_eq_true hr) (sight_stepDown _))
  · exact h.deed (.stepDown (sight_stepDown _))

/-- What follows taking office does not count. -/
theorem deeds_becomeLeader (h : Deeds ev e₀ e.takeOffice) :
    wp becomeLeader (fun _ => Deeds ev e₀) (fun _ => Deeds ev e₀) e := by
  simp only [becomeLeader, wp_bind, wp_get, wp_modify]
  refine wp_mono (deeds_appendLocal _ _ h) (fun _ e' h' => ?_) fun _ _ h' => h'
  have h'' := h'.rest (sight_advanceCommitIndex e')
  exact h''.rest (sight_startReplicators { e'.advanceCommitIndex with replicators := Dict.empty })

theorem deeds_becomeCandidate (h : Deeds ev e₀ e) (hx : e₀.AsFound e) (hw : e₀.Stands ev)
    (transfer : Bool) :
    wp (becomeCandidate transfer) (fun _ => Deeds ev e₀) (fun _ => Deeds ev e₀) e := by
  simp only [becomeCandidate, persistTermAndVote, wp_bind, wp_get, wp_modify, wp_storageCall,
    wp_ite]
  split
  · rename_i hr
    exact h.deed (.standFails hx hw hr rfl)
  · rename_i hr
    have hr' := Bool.eq_false_of_not_eq_true hr
    split
    · rename_i hm
      have hm' : e₀.majority ≤ e₀.countVotes [e.nodeId] := by
        unfold Engine.majority Engine.countVotes Engine.countMembers
        rw [← hx.members]
        exact hm
      exact deeds_becomeLeader (h.deed (.win hx hw hr' hm' rfl))
    · obtain ⟨hs, ho, hp⟩ := sight_callVoters e.standForElection.saveVote.openBallot.resetElectionTimer
        fun peer => .requestVote peer.nodeId
          (e.standForElection.voteRequest (e.node.currentTerm + 1) false transfer)
      refine h.deed (.stand hx hw hr' ho (fun p hmem => ?_) hs)
      rcases hp p hmem with hin | ⟨m, address, rfl⟩
      · exact Or.inl hin
      · exact Or.inr ⟨_, _, _, rfl, rfl, rfl, rfl⟩

theorem deeds_acceptLeader {t : Nat} (hh : e.node.currentTerm < t → e.heard ev = some t) (l : NodeId)
    (a : String) : wp (acceptLeader t l a) (fun _ => Deeds ev e) (fun _ => Deeds ev e) e := by
  simp only [acceptLeader, wp_bind, wp_get, wp_ite, wp_modify]
  split
  · exact wp_mono (deeds_becomeFollower .refl fun hlt => ⟨.rfl, hh hlt⟩)
      (fun _ _ h' => h'.rest rfl) fun _ _ h' => h'
  · exact (Deeds.refl.deed (.bump rfl)).rest rfl

/-! ## Messages -/

theorem deeds_handleAppendEntries {req : AppendEntriesRequest} (hh : e.heard ev = some req.term) :
    wp (handleAppendEntries req) (fun _ => Deeds ev e) (fun _ => Deeds ev e) e := by
  simp only [handleAppendEntries, wp_bind, wp_get, wp_ite, wp_pure]
  split
  · exact .refl
  · refine wp_mono (deeds_acceptLeader (fun _ => hh) _ _) (fun _ e' h' => ?_) fun _ _ h' => h'
    simp only [wp_bind, wp_get, wp_ite, wp_pure]
    split
    · exact h'
    · split
      · exact h'
      · exact wp_mono (sight_appendFrom e'.sight req _ _ e' rfl) (fun _ _ hs => h'.rest hs)
          fun _ _ hs => h'.rest hs

theorem deeds_decideVote (req : RequestVoteRequest) : Keeps (Deeds ev e₀) (decideVote req) :=
  fun e h => by
    simp only [decideVote, persistTermAndVote, wp_bind, wp_get, wp_ite, wp_pure, wp_modify,
      wp_storageCall]
    split
    · exact h
    · rename_i hn
      have hv : e.node.votedFor = none ∨ e.node.votedFor = some req.candidateId := by
        by_cases hnone : e.node.votedFor = none
        · exact Or.inl hnone
        · exact Or.inr (Decidable.not_not.mp fun hd => hn (Or.inr (Or.inl ⟨hnone, hd⟩)))
      split
      · rename_i hr
        exact h.deed (.voteFails hv hr rfl)
      · rename_i hr
        exact h.deed (.vote hv (Bool.eq_false_of_not_eq_true hr) rfl)

theorem deeds_handleRequestVote {req : RequestVoteRequest}
    (hh : req.preVote = false → (req.transfer = true ∨ e.inLeaderLease = false) →
      e.heard ev = some req.term) :
    wp (handleRequestVote req) (fun _ => Deeds ev e) (fun _ => Deeds ev e) e := by
  simp only [handleRequestVote, wp_bind, wp_get, wp_ite, wp_pure]
  split
  · exact .refl
  · rename_i hp
    split
    · exact .refl
    · rename_i hlease
      split
      · rename_i hlt
        refine wp_mono (deeds_becomeFollower .refl fun _ => ⟨.rfl, hh ?_ ?_⟩)
          (fun _ e' h' => deeds_decideVote req e' h') fun _ _ h' => h'
        · exact Bool.eq_false_of_not_eq_true hp
        · by_cases ht : req.transfer = true
          · exact Or.inl ht
          · exact Or.inr (Bool.eq_false_of_not_eq_true fun hl => hlease ⟨hlt, ht, hl⟩)
      · exact deeds_decideVote req e .refl

theorem deeds_handleInstallSnapshot (env : Envelope) {req : InstallSnapshotRequest}
    (hh : e.heard ev = some req.term) :
    wp (handleInstallSnapshot env req) (fun _ => Deeds ev e) (fun _ => Deeds ev e) e := by
  simp only [handleInstallSnapshot, wp_bind, wp_get, wp_ite, wp_pure]
  split
  · exact .refl
  · refine wp_mono (deeds_acceptLeader (fun _ => hh) _ _) (fun _ e' h' => ?_) fun _ _ h' => h'
    simp only [wp_bind, wp_get, wp_ite, wp_pure]
    split
    · exact h'
    · split
      · exact h'
      · simp only [wp_ite, wp_bind, wp_modify, wp_pure]
        split
        · exact h'.rest rfl
        · exact h'.rest rfl

theorem deeds_handleTimeoutNow {env : Envelope} {req : TimeoutNowRequest} {handover : Nat}
    (ha : ev.Calls env) (hc : env.call = .timeoutNow req handover) (hr : e.running = true) :
    wp (handleTimeoutNow req) (fun _ => Deeds ev e) (fun _ => Deeds ev e) e := by
  simp only [handleTimeoutNow, wp_bind, wp_get, wp_ite, wp_pure]
  split
  · rename_i hn
    exact wp_mono (deeds_becomeCandidate .refl .rfl (.handover ha hc hr hn.1 hn.2.1 hn.2.2) true)
      (fun _ _ h' => h') fun _ _ h' => h'
  · exact .refl

theorem heard_call {env : Envelope} (ha : ev.Calls env) (hr : e.running = true) :
    e.heard ev = e.callTerm env.call := by
  rw [ha, Engine.heard, if_pos hr]

theorem heard_ballot {env : Envelope} {req : RequestVoteRequest} (ha : ev.Calls env)
    (hr : e.running = true)
    (hc : (∃ peer round, env.call = .preVote peer req round) ∨ ∃ peer, env.call = .requestVote peer req)
    (hp : req.preVote = false) (hl : req.transfer = true ∨ e.inLeaderLease = false) :
    e.heard ev = some req.term := by
  have hno : ¬ (req.preVote = true ∨ (¬ req.transfer = true ∧ e.inLeaderLease = true)) := by
    rcases hl with hl | hl
    · simp [hp, hl]
    · simp [hp, hl]
  rw [heard_call ha hr]
  rcases hc with ⟨peer, round, hc⟩ | ⟨peer, hc⟩
  · rw [hc]
    exact if_neg hno
  · rw [hc]
    exact if_neg hno

theorem deeds_handleRpc {env : Envelope} (ha : ev.Calls env) (hr : e.running = true) :
    wp (handleRpc env) (fun _ => Deeds ev e) (fun _ => Deeds ev e) e := by
  have hreply : ∀ {e' : Engine} (r : Response), Deeds ev e e' → Deeds ev e (e'.send (.reply env r)) :=
    fun r h' => h'.send trivial
  unfold handleRpc
  split
  · rename_i hc
    simp only [wp_bind]
    exact wp_mono (deeds_handleRequestVote (heard_ballot ha hr (Or.inl ⟨_, _, hc⟩)))
      (fun _ _ h' => hreply _ h') fun _ _ h' => h'
  · rename_i hc
    simp only [wp_bind]
    exact wp_mono (deeds_handleRequestVote (heard_ballot ha hr (Or.inr ⟨_, hc⟩)))
      (fun _ _ h' => hreply _ h') fun _ _ h' => h'
  · rename_i hc
    simp only [wp_bind]
    refine wp_mono (deeds_handleAppendEntries ?_) (fun _ _ h' => hreply _ h') fun _ _ h' => h'
    rw [heard_call ha hr, hc]
    rfl
  · rename_i hc
    simp only [wp_bind]
    refine wp_mono (deeds_handleInstallSnapshot env ?_) (fun a e' h' => ?_) fun _ _ h' => h'
    · rw [heard_call ha hr, hc]
      rfl
    · split
      · exact hreply _ h'
      · exact h'
  · rename_i hc
    simp only [wp_bind]
    exact wp_mono (deeds_handleTimeoutNow ha hc hr) (fun _ _ h' => hreply _ h') fun _ _ h' => h'
  · exact Deeds.refl.rest rfl

/-! ## Replies -/

theorem heard_reply {env : Envelope} {response : Response}
    (hev : ev = .receive (.reply env response)) (hep : env.epoch = e.epoch) :
    e.heard ev = env.call.replyTerm response := by
  rw [hev, Engine.heard, if_pos hep.symm]

theorem deeds_preVoteReply {peer : NodeId} {request : RequestVoteRequest} {round : Nat}
    {response : RequestVoteResponse}
    (ha : ev.Answers e (.preVote peer request round) (.requestVote response)) :
    wp (preVoteReply peer round response) (fun _ => Deeds ev e) (fun _ => Deeds ev e) e := by
  simp only [preVoteReply, wp_bind, wp_get, wp_ite, wp_pure, wp_modify]
  split
  · obtain ⟨env, hev, hc, hep⟩ := ha
    exact deeds_becomeFollower .refl fun _ => ⟨.rfl, by rw [heard_reply hev hep, hc]; rfl⟩
  · rename_i hle
    split
    · exact .refl
    · rename_i hn
      simp only [not_or, Decidable.not_not] at hn
      obtain ⟨rfl, hl, hg⟩ := hn
      have h := (Deeds.refl : Deeds ev e e).deed (.addGrant ha hg hl (y := e.addGrant peer) rfl)
      split
      · rename_i hm
        exact deeds_becomeCandidate h ⟨rfl, rfl, rfl, rfl⟩
          (.round ha hg (Nat.le_of_not_lt hle) hl hm) false
      · exact h

theorem deeds_requestVoteReply {peer : NodeId} {request : RequestVoteRequest}
    {response : RequestVoteResponse}
    (ha : ev.Answers e (.requestVote peer request) (.requestVote response)) :
    wp (requestVoteReply peer request response) (fun _ => Deeds ev e) (fun _ => Deeds ev e) e := by
  simp only [requestVoteReply, wp_bind, wp_get, wp_ite, wp_pure, wp_modify]
  split
  · obtain ⟨env, hev, hc, hep⟩ := ha
    exact deeds_becomeFollower .refl fun _ => ⟨.rfl, by rw [heard_reply hev hep, hc]; rfl⟩
  · rename_i hle
    split
    · exact .refl
    · rename_i hn
      simp only [not_or, Decidable.not_not] at hn
      have h := (Deeds.refl : Deeds ev e e).deed
        (.addVote ha hn.2.2 hn.1 hn.2.1 (y := e.addVote peer) rfl)
      split
      · rename_i hm
        exact deeds_becomeLeader (h.deed (.office rfl ha hn.2.1
          (Nat.le_of_not_lt hle) hn.1 hm rfl))
      · exact h

theorem deeds_appendEntriesReply {peer : NodeId} {request : AppendEntriesRequest} {seq : Nat}
    {response : AppendEntriesResponse} (hh : e.heard ev = some response.term) :
    wp (appendEntriesReply peer request seq response) (fun _ => Deeds ev e) (fun _ => Deeds ev e)
      e := by
  simp only [appendEntriesReply, wp_bind, wp_get, wp_ite, wp_pure, wp_modify]
  split
  · exact deeds_becomeFollower .refl fun _ => ⟨.rfl, hh⟩
  · split
    · exact .refl
    · have h' : Deeds ev e (e.noteContact peer seq) := Deeds.refl.rest rfl
      split
      · have h'' : Deeds ev e ((e.noteContact peer seq).noteMatch peer
            (max (request.prevLogIndex + request.entries.length) response.matchIndex)) := h'.rest rfl
        exact h''.rest (sight_advanceCommitIndex _)
      · exact h'.rest rfl

/-- A chunk is no call for a vote. -/
theorem Deeds.sendChunk (h : Deeds ev e₀ e) (t : Transfer) : Deeds ev e₀ (e.sendChunk t) :=
  h.send fun peer request => by
    refine ⟨fun hc => ?_, fun round hc => ?_⟩
    · cases hc
    · cases hc

theorem deeds_installSnapshotReply {request : InstallSnapshotRequest} {transfer : Transfer}
    {response : InstallSnapshotResponse} (hh : e.heard ev = some response.term) :
    wp (installSnapshotReply request transfer response) (fun _ => Deeds ev e) (fun _ => Deeds ev e)
      e := by
  simp only [installSnapshotReply, wp_bind, wp_get, wp_ite, wp_pure, wp_modify]
  split
  · exact deeds_becomeFollower .refl fun _ => ⟨.rfl, hh⟩
  · split
    · exact .refl
    · have h' : Deeds ev e (e.noteContact transfer.peer transfer.seq) := Deeds.refl.rest rfl
      split
      · split
        · exact h'.rest rfl
        · exact h'.sendChunk _
      · exact h'

theorem deeds_handleReply {env : Envelope} {response : Response}
    (hev : ev = .receive (.reply env response)) (hep : env.epoch = e.epoch) :
    wp (handleReply env response) (fun _ => Deeds ev e) (fun _ => Deeds ev e) e := by
  unfold handleReply
  split
  · rename_i hc
    exact deeds_preVoteReply ⟨env, hev, hc, hep⟩
  · rename_i hc
    exact deeds_requestVoteReply ⟨env, hev, hc, hep⟩
  · rename_i hc
    exact deeds_appendEntriesReply (by rw [heard_reply hev hep, hc]; rfl)
  · rename_i hc
    exact deeds_installSnapshotReply (by rw [heard_reply hev hep, hc]; rfl)
  · exact Deeds.refl.rest rfl
  · exact Deeds.refl.rest rfl
  · exact .refl

/-! ## Threads -/

theorem deeds_startElection {generation : Option Nat} (hev : ev.Timer) (h : Deeds ev e₀ e) (hx : e₀.AsFound e)
    (hw : e.running = true → (generation = none ∨ generation = some e.timerGeneration) →
      e.node.state ≠ .leader → e.members.contains e.nodeId = true → e.voters = [] →
      e₀.Stands ev) :
    wp (startElection generation) (fun _ => Deeds ev e₀) (fun _ => Deeds ev e₀) e := by
  simp only [startElection, wp_bind, wp_get, wp_ite, wp_pure, wp_modify]
  split
  · exact h
  · rename_i hn
    simp only [not_or, Decidable.not_not] at hn
    split
    · exact h.deed (.bump rfl)
    · rename_i hm
      split
      · rename_i hv
        refine deeds_becomeCandidate h hx (hw hn.1 ?_ hn.2.2 (Decidable.not_not.mp hm) hv) false
        by_cases hg : generation = none
        · exact Or.inl hg
        · exact Or.inr (Decidable.not_not.mp fun hne => hn.2.1 ⟨hg, hne⟩)
      · obtain ⟨hs, ho, hp⟩ := sight_callVoters { e.resetElectionTimer with grants := [e.nodeId] }
          fun peer => .preVote peer.nodeId (e.voteRequest (e.node.currentTerm + 1) true false)
            (e.timerGeneration + 1)
        refine h.deed (.openRound hev hn.2.2 ho (fun p hmem => ?_) hs)
        rcases hp p hmem with hin | ⟨m, address, rfl⟩
        · exact Or.inl hin
        · exact Or.inr ⟨_, _, _, rfl, rfl, rfl, rfl⟩

theorem deeds_checkQuorum (term : Nat) : Keeps (Deeds ev e₀) (checkQuorum term) := fun e h => by
  simp only [checkQuorum, wp_bind, wp_get, wp_ite, wp_pure]
  split
  · exact deeds_becomeFollower h fun hlt => absurd hlt (Nat.lt_irrefl _)
  · exact h

theorem deeds_start (hev : ev = .act .start) :
    wp start (fun _ => Deeds ev e) (fun _ => Deeds ev e) e := by
  simp only [start, wp_bind, wp_get, wp_ite, wp_pure, wp_modify]
  split
  · rename_i hn
    have h' : Deeds ev e { e with running := true } := Deeds.refl.deed (.power rfl)
    split
    · exact deeds_startElection (Or.inl hev) h' ⟨rfl, rfl, rfl, rfl⟩ fun _ _ hl hm hv =>
        .alone (Or.inl ⟨hev, Bool.eq_false_of_not_eq_true hn.1, Bool.eq_false_of_not_eq_true hn.2⟩)
          hl hm hv
    · exact h'.deed (.bump rfl)
  · exact .refl

theorem deeds_replicate (peer : NodeId) (term wakeup : Nat) :
    Keeps (Deeds ev e₀) (replicate peer term wakeup) := fun e h => by
  have hdrop : Deeds ev e₀ (e.dropReplicator peer wakeup) := by
    unfold Engine.dropReplicator
    split
    · exact h.rest rfl
    · exact h
  simp only [replicate, wp_bind, wp_get]
  split
  · exact hdrop
  · simp only [wp_ite, wp_modify]
    split
    · exact hdrop
    · split
      · exact h
      · simp only [wp_ite, wp_modify]
        split
        · exact h.rest rfl
        · exact h.rest rfl

theorem deeds_sendNext (k : Nat) : Keeps (Deeds ev e₀) (sendNext k) := fun e h => by
  have h' : Deeds ev e₀ (e.pull k).nextSendSeq := h.rest rfl
  simp only [sendNext, wp_bind, wp_get]
  split
  · refine h'.send fun peer request => ⟨fun hc => ?_, fun round hc => ?_⟩
    · cases hc
    · cases hc
  · exact h'.sendChunk _
  · exact h

theorem deeds_writeSnapshot (k : Nat) (file : List UInt8) :
    Keeps (Deeds ev e₀) (writeSnapshot k file) := fun e h => by
  simp only [writeSnapshot, wp_bind, wp_get]
  split
  · simp only [wp_bind, wp_ite, wp_modify, wp_pure]
    split
    · exact h.rest rfl
    · exact h.rest rfl
  · exact h

theorem deeds_finishTransfer (k : Nat) : Keeps (Deeds ev e₀) (finishTransfer k) := fun e h => by
  simp only [finishTransfer, wp_bind, wp_get]
  split
  · rename_i transfer _
    simp only [wp_bind, wp_ite, wp_modify, wp_pure]
    split
    · have h' : Deeds ev e₀ ((e.dropTransfer k).noteMatch transfer.peer transfer.index) := h.rest rfl
      exact h'.rest (sight_advanceCommitIndex _)
    · exact h.rest rfl
  · exact h

/-! ## Applying -/

theorem Deeds.reply (h : Deeds ev e₀ e) (install : Install) : Deeds ev e₀ (e.replyInstall install) :=
  h.send trivial

theorem deeds_beginInstall {k : Nat} (hev : ev = .act (.beginInstall k)) :
    Keeps (Deeds ev e₀) (beginInstall k) := fun e h => by
  have hw : ev.Works := Or.inr (Or.inr (Or.inr (Or.inl ⟨k, hev⟩)))
  simp only [beginInstall, wp_bind, wp_get]
  split
  · simp only [wp_bind, wp_ite, wp_modify]
    split
    · have h' : Deeds ev e₀ (e.dropInstall k) := h.rest rfl
      exact h'.reply _
    · exact h.deed (.work hw rfl)
  · exact h

theorem deeds_finishInstall {restored : Bool} (hev : ev = .act (.finishInstall restored)) :
    Keeps (Deeds ev e₀) (finishInstall restored) := fun e h => by
  have hw : ev.Works := Or.inr (Or.inr (Or.inr (Or.inr (Or.inl ⟨restored, hev⟩))))
  simp only [finishInstall, wp_bind, wp_get]
  split
  · rename_i y _
    simp only [wp_bind, wp_ite, wp_modify, wp_pure]
    split
    · simp only [installSnapshot, wp_bind, wp_get, wp_ite, wp_modify, wp_storageCall]
      have hdone : ∀ e' : Engine, Deeds ev e₀ e' → Deeds ev e₀ (e'.refreshConfig.replyInstall y) :=
        fun e' h' => (h'.rest (sight_refreshConfig e')).reply y
      split
      · split
        · exact h.deed (.work hw rfl)
        · split
          · exact h.deed (.work hw rfl)
          · exact hdone _ (h.deed (.work hw rfl))
      · split
        · exact h.deed (.work hw rfl)
        · exact hdone _ (h.deed (.work hw rfl))
    · exact h.deed (.work hw rfl)
  · exact h

theorem deeds_beginApply (hev : ev = .act .beginApply) : Keeps (Deeds ev e₀) beginApply :=
  fun e h => by
    simp only [beginApply, wp_bind, wp_get]
    split
    · simp only [wp_ite, wp_modify, wp_pure]
      split
      · exact h.deed (.work (Or.inl hev) rfl)
      · exact h
    · exact h

theorem deeds_maybeSnapshot (hw : ev.Works) (threshold : Nat) :
    Keeps (Deeds ev e₀) (maybeSnapshot threshold) := fun e h => by
  simp only [maybeSnapshot, wp_bind, wp_get, wp_ite, wp_pure, wp_modify, wp_storageCall]
  split
  · exact h
  · split
    · exact h.deed (.work hw rfl)
    · exact h.deed (.work hw rfl)

theorem deeds_finishApply {result : Result} (hev : ev = .act (.finishApply result)) :
    Keeps (Deeds ev e₀) (finishApply result) := fun e h => by
  have hw : ev.Works := Or.inr (Or.inl ⟨result, hev⟩)
  simp only [finishApply, wp_bind, wp_get]
  split
  · rename_i index entry _
    have h' : Deeds ev e₀ (e.noteApplied index entry.term (entry.command.applied result)) :=
      h.deed (.work hw rfl)
    simp only [wp_bind, wp_get, wp_ite, wp_modify]
    split
    · exact wp_mono (deeds_becomeFollower h' fun hlt => absurd hlt (Nat.lt_irrefl _))
        (fun _ e' h'' => deeds_maybeSnapshot hw _ e' h'') fun _ _ h'' => h''
    · exact deeds_maybeSnapshot hw _ _ h'
  · exact h

theorem deeds_stopApply (hev : ev = .act .stopApply) : Keeps (Deeds ev e₀) stopApply := fun e h => by
  simp only [stopApply, wp_bind, wp_get]
  split
  · simp only [wp_ite, wp_modify, wp_pure]
    split
    · exact h.deed (.work (Or.inr (Or.inr (Or.inl hev))) rfl)
    · exact h
  · exact h

/-! ## Client calls -/

theorem deeds_startProposal (command : Command) (username requestId : String) (timeout : Nat) :
    Keeps (Deeds ev e₀) (startProposal command username requestId timeout) := fun e h => by
  simp only [startProposal, propose, wp_bind, wp_get, wp_ite, wp_throw]
  split
  · exact h
  · split
    · exact h
    · refine wp_mono (deeds_appendLocal _ e h) (fun _ e' h' => ?_) fun _ _ h' => h'
      have h'' : Deeds ev e₀ (e'.addWaiter (e.newEntry command username requestId).index) :=
        h'.rest rfl
      exact (h''.rest (sight_advanceCommitIndex _)).rest rfl

theorem deeds_wakeProposal (id : Nat) : Keeps (Deeds ev e₀) (wakeProposal id) := fun e h => by
  simp only [wakeProposal, wp_bind, wp_get]
  split
  · split
    · exact h
    · exact h.rest rfl
    · exact h
  · exact h

theorem Deeds.catchUpLearner (h : Deeds ev e₀ e) (c : ConfigChange) (m : Member) (term : Nat) :
    Deeds ev e₀ (e.catchUpLearner c m term) := by
  unfold Engine.catchUpLearner
  split
  · split
    · exact h.rest rfl
    · exact h.rest rfl
  · exact h.rest rfl

theorem Deeds.waitConfigIdle (h : Deeds ev e₀ e) (c : ConfigChange) (term : Nat) :
    Deeds ev e₀ (e.waitConfigIdle c term) := by
  unfold Engine.waitConfigIdle Engine.changeIdle
  split
  · split
    · exact h.rest rfl
    · exact h.rest rfl
  · split
    · rename_i m _
      have h' : Deeds ev e₀ (e.addLearner m) := h.rest rfl
      exact (h'.rest (sight_startReplicator _ _)).catchUpLearner c m _
    · exact h.rest rfl

theorem deeds_changeMembership (change : Change) (deadline : Nat) :
    Keeps (Deeds ev e₀) (changeMembership change deadline) := fun e h => by
  simp only [changeMembership, wp_modify]
  split
  · exact h
  · split
    · exact h.rest rfl
    · split
      · exact h.rest rfl
      · exact h.waitConfigIdle _ _

theorem deeds_wakeChange : Keeps (Deeds ev e₀) wakeChange := fun e h => by
  simp only [wakeChange, wp_bind, wp_get]
  split
  · exact h
  · rename_i c hc
    split
    · exact h.waitConfigIdle c _
    · split
      · exact h.catchUpLearner c _ _
      · exact h
    · simp only [proposeConfig, wp_bind, wp_get, wp_tryCatch]
      refine wp_mono (deeds_startProposal _ _ _ _ e h) (fun _ _ h' => ?_) fun _ _ h' => ?_
      · exact h'.rest rfl
      · exact h'.rest rfl
    · split
      · split
        · exact h
        · exact h.rest rfl
        · exact h.rest rfl
      · exact h
    · have h' : Deeds ev e₀ (e.forgetLearner c.change) := by
        unfold Engine.forgetLearner
        split
        · split
          · exact h
          · exact h.rest rfl
        · exact h
      exact h'.rest rfl
    · exact h
    · exact h

theorem deeds_transferLeadership (timeout : Nat) :
    Keeps (Deeds ev e₀) (transferLeadership timeout) := fun e h => by
  simp only [transferLeadership, wp_bind, wp_get]
  split
  · simp only [wp_ite, wp_modify, wp_pure]
    split
    · exact h.rest rfl
    · exact h
  · exact h

theorem deeds_wakeHandover (id : Nat) : Keeps (Deeds ev e₀) (wakeHandover id) := fun e h => by
  have hphase : ∀ (c : Handover) (phase : HandoverPhase), Deeds ev e₀ (e.handoverPhase c phase) :=
    fun _ _ => h.rest rfl
  simp only [wakeHandover, wp_modify]
  split
  · unfold Engine.stepHandover
    split
    · split
      · split
        · exact hphase _ _
        · exact h
      · split
        · refine (hphase _ _).send fun peer request => ⟨fun hc => ?_, fun round hc => ?_⟩
          · cases hc
          · cases hc
        · exact hphase _ _
    · exact hphase _ _
    · split
      · exact h
      · exact hphase _ _
    · rename_i c _ _ _
      have h' := hphase c .returned
      exact h'.rest rfl
    · exact h
  · exact h

theorem Deeds.confirmed (h : Deeds ev e₀ e) (c : ReadCall) (out : Except EngineError ReadPhase) :
    Deeds ev e₀ (e.confirmed c out) := by
  have hset : ∀ phase, Deeds ev e₀ (e.setRead c phase) := fun _ => h.rest rfl
  unfold Engine.confirmed
  split
  · split
    · exact hset _
    · exact (hset _).send trivial
  · exact hset _
  · split
    · exact (hset _).send trivial
    · exact hset _
    · exact hset _

theorem Deeds.stepRead (h : Deeds ev e₀ e) (c : ReadCall) : Deeds ev e₀ (e.stepRead c) := by
  have hset : ∀ phase, Deeds ev e₀ (e.setRead c phase) := fun _ => h.rest rfl
  unfold Engine.stepRead
  split
  · exact hset _
  · exact h.confirmed _ _
  · exact h.confirmed _ _
  · exact h.confirmed _ _
  · unfold Engine.remoteReadIndex
    dsimp only
    generalize (if e.node.leaderId.isSome then e.leaderAddress else "") = address
    split
    · exact hset _
    · refine (hset _).send fun peer request => ⟨fun hc => ?_, fun round hc => ?_⟩
      · cases hc
      · cases hc
  · exact hset _
  · split
    · exact hset _
    · split
      · exact hset _
      · exact h
  · exact h
  · exact h

theorem deeds_wakeRead (id : Nat) : Keeps (Deeds ev e₀) (wakeRead id) := fun e h => by
  simp only [wakeRead, wp_modify]
  split
  · exact h.stepRead _
  · exact h

/-! ## One event -/

/-- Every event but a restart is a sequence of deeds. -/
theorem deeds_step (hev : ev ≠ .act .restart) : Deeds ev e (e.step ev) := by
  refine (wp_after (P := Deeds ev e)).mp ?_
  have h : Deeds ev e e := .refl
  cases ev with
  | receive p =>
      cases p with
      | call env =>
          simp only [NodeEvent.body, KvCache.receive, wp_bind, wp_get, wp_ite, wp_pure]
          split
          · rename_i hr
            exact deeds_handleRpc rfl hr
          · exact h
      | reply env response =>
          simp only [NodeEvent.body, KvCache.receive, wp_bind, wp_get, wp_ite, wp_pure]
          split
          · rename_i hep
            exact deeds_handleReply rfl hep.symm
          · exact h
  | act a =>
      cases a with
      | tick ms => exact h.rest rfl
      | restart => exact absurd rfl hev
      | start => exact deeds_start rfl
      | stop =>
          have h' : Deeds (.act .stop) e { e with running := false } := h.deed (.power rfl)
          exact h'.deed (.bump rfl)
      | electionTimeout generation =>
          refine deeds_startElection (Or.inr ⟨_, rfl⟩) h .rfl fun hr hg hl hm hv => .alone (Or.inr ⟨?_, hr⟩) hl hm hv
          rcases hg with hg | hg
          · cases hg
          · rw [Option.some.inj hg]
      | checkQuorum term => exact deeds_checkQuorum _ e h
      | replicate peer term wakeup => exact deeds_replicate _ _ _ e h
      | sendNext k => exact deeds_sendNext _ e h
      | writeSnapshot k file => exact deeds_writeSnapshot _ _ e h
      | finishTransfer k => exact deeds_finishTransfer _ e h
      | beginInstall k => exact deeds_beginInstall rfl e h
      | finishInstall restored => exact deeds_finishInstall rfl e h
      | beginApply => exact deeds_beginApply rfl e h
      | finishApply result => exact deeds_finishApply rfl e h
      | stopApply => exact deeds_stopApply rfl e h
      | compact threshold =>
          exact deeds_maybeSnapshot (Or.inr (Or.inr (Or.inr (Or.inr (Or.inr ⟨threshold, rfl⟩))))) _ e h
      | propose text username requestId timeout =>
          simp only [NodeEvent.body, Action.body, wp_bind]
          exact wp_mono (deeds_startProposal _ _ _ _ e h) (fun _ _ h' => h') fun _ _ h' => h'
      | wakeProposal id => exact deeds_wakeProposal _ e h
      | changeMembership change deadline => exact deeds_changeMembership _ _ e h
      | wakeChange => exact deeds_wakeChange e h
      | transferLeadership timeout => exact deeds_transferLeadership _ e h
      | wakeHandover id => exact deeds_wakeHandover _ e h
      | readIndex timeout => exact h.rest rfl
      | wakeRead id => exact deeds_wakeRead _ e h

end Handlers

end KvCache
