import KvCache.ClusterMoves
import KvCache.Progress

/-!
# The sections of a node keep the invariant

`Rel c h₀ i e` says that the engine `e` of node `i` is related to some
history that grew from `h₀` by moves of node `i`. Every section of the
engine keeps it, whether it returns or raises, when no storage call raises
and no membership change is started. The helpers come first, in the order in
which the engine is put together; a helper that callers rely on for more is
stated in continuation form, for every `Q` that follows from what it
ensures.
-/

namespace KvCache

open QuorumLog QuorumLog.History StateWp Engine
open MemoryRaftStorage (Holds holds_append)

/-- The engine of node `i` is related to a history grown from `h₀`. -/
def Rel (c : Cluster) (h₀ : Hist) (i : NodeId) (e : Engine) : Prop := Evolves c h₀ i e.core

/-- It is related to a history in which `P` holds. -/
def RelWith (c : Cluster) (h₀ : Hist) (i : NodeId) (P : Hist → Prop) (e : Engine) : Prop :=
  ∃ h, Grows i h₀ h ∧ c.HistOk h ∧ LeadsClean h ∧ P h ∧ NodeRel c h i e.core

/-! ## Storage calls that succeed -/

theorem useFault_nil {e : Engine} {k : StorageCall} (hf : e.faults k = []) :
    e.useFault k = e := by
  have : (fun d => if d = k then (e.faults d).tail else e.faults d) = e.faults := by
    funext d
    split
    · rename_i hd
      rw [hd, hf]
      rfl
    · rfl
  simp only [Engine.useFault, this]

theorem wp_storageCall_ok {e : Engine} {k : StorageCall} (hf : e.faults k = [])
    {f : MemoryRaftStorage → MemoryRaftStorage} {Q : Unit → Engine → Prop}
    {R : EngineError → Engine → Prop} :
    wp (storageCall k f) Q R e ↔ Q () (e.store f) := by
  have hr : ¬ e.raises k = true := by simp [Engine.raises, hf]
  rw [wp_storageCall, if_neg hr, useFault_nil hf]

/-! ## What helpers do to the core -/

/-- Packets are put on the wire. -/
def Core.post (x : Core) (ps : List Packet) : Core := { x with outbox := x.outbox ++ ps }

theorem Core.post_post (x : Core) (ps qs : List Packet) :
    (x.post ps).post qs = x.post (ps ++ qs) := by
  simp [Core.post]

section Core

variable (e : Engine)

@[simp] theorem core_resetElectionTimer : e.resetElectionTimer.core = e.core := rfl

@[simp] theorem core_followLeader (l : NodeId) (a : String) : (e.followLeader l a).core = e.core :=
  rfl

theorem core_stepDown (hl : e.learners = Dict.empty) :
    e.stepDown.core = { e.core with state := .follower } := by
  unfold Engine.stepDown
  simp only [core_resetElectionTimer]
  split
  · simp only [Engine.core, hl]
  · rfl

theorem stepDown_currentTerm : e.stepDown.node.currentTerm = e.node.currentTerm := by
  unfold Engine.stepDown
  split <;> rfl

@[simp] theorem core_send (p : Packet) : (e.send p).core = e.core.post [p] := rfl

@[simp] theorem core_dropReplicator (p : NodeId) (w : Nat) :
    (e.dropReplicator p w).core = e.core := by
  unfold Engine.dropReplicator
  split <;> rfl

@[simp] theorem core_addGrant (p : NodeId) : (e.addGrant p).core = e.core := rfl

@[simp] theorem core_noteContact (p : NodeId) (s : Nat) : (e.noteContact p s).core = e.core := rfl

@[simp] theorem core_backUp (p : NodeId) (k l : Nat) : (e.backUp p k l).core = e.core := rfl

@[simp] theorem core_setRead (r : ReadCall) (p : ReadPhase) : (e.setRead r p).core = e.core := rfl

@[simp] theorem core_handoverPhase (d : Handover) (p : HandoverPhase) :
    (e.handoverPhase d p).core = e.core := rfl

end Core

section Rel

variable {c : Cluster} {h₀ : Hist} {i : NodeId} {e : Engine}

theorem Rel.frame (he : Rel c h₀ i e) {e' : Engine} (hc : e'.core = e.core) : Rel c h₀ i e' := by
  unfold Rel
  rw [hc]
  exact he

theorem Rel.faults (he : Rel c h₀ i e) (k : StorageCall) : e.faults k = [] := by
  obtain ⟨h, -, -, -, r⟩ := he
  exact r.faults k

theorem Rel.nodeId (he : Rel c h₀ i e) : e.nodeId = i := by
  obtain ⟨h, -, -, -, r⟩ := he
  rw [Engine.nodeId, show e.settings = c.settings i from r.settings]
  rfl

theorem Rel.noChange (he : Rel c h₀ i e) : e.configChange = none := by
  obtain ⟨h, -, -, -, r⟩ := he
  exact r.noChange

/-- A move of the node: what it does to the core for every history. -/
theorem Rel.move (he : Rel c h₀ i e) {e' : Engine}
    (hm : ∀ h, Grows i h₀ h → c.HistOk h → LeadsClean h → NodeRel c h i e.core →
      Evolves c h i e'.core) : Rel c h₀ i e' := by
  obtain ⟨h, g, ok, cl, r⟩ := he
  exact Evolves.trans g (hm h g ok cl r)

/-- A move that leaves the history as it is. -/
theorem Rel.keep (he : Rel c h₀ i e) {e' : Engine}
    (hm : ∀ h, Grows i h₀ h → c.HistOk h → LeadsClean h → NodeRel c h i e.core →
      NodeRel c h i e'.core) : Rel c h₀ i e' :=
  he.move fun h g ok cl r => Evolves.refl ok cl (hm h g ok cl r)

/-! ## Becoming a follower -/

theorem Rel.stepDown (he : Rel c h₀ i e) : Rel c h₀ i e.stepDown :=
  he.keep fun _ _ _ _ r => by
    rw [core_stepDown _ r.learners]
    exact r.stepDown

variable {Q : Unit → Engine → Prop} {R : EngineError → Engine → Prop}

theorem wp_becomeFollower (he : Rel c h₀ i e) {t : Nat}
    (hQ : ∀ e', Rel c h₀ i e' → e'.node.state = .follower →
      e'.node.currentTerm = max e.node.currentTerm t → Q () e') :
    wp (becomeFollower t) Q R e := by
  simp only [becomeFollower, persistTermAndVote, wp_bind, wp_get, wp_ite, wp_modify]
  split
  · rename_i ht
    rw [wp_storageCall_ok (e := e.enterTerm t) (he.faults _)]
    refine hQ _ (he.move fun h _ ok cl r => ?_) ?_ ?_
    · rw [core_stepDown ((e.enterTerm t).store _) r.learners]
      exact r.enterTerm ok cl ht
    · simp [Engine.stepDown, Engine.resetElectionTimer]
    · rw [stepDown_currentTerm, Nat.max_eq_right (Nat.le_of_lt ht)]
      rfl
  · rename_i ht
    refine hQ _ he.stepDown ?_ ?_
    · simp [Engine.stepDown, Engine.resetElectionTimer]
    · rw [stepDown_currentTerm, Nat.max_eq_left (Nat.le_of_not_lt ht)]

theorem wp_acceptLeader (he : Rel c h₀ i e) {t : Nat} {l : NodeId} {a : String}
    (ht : e.node.currentTerm ≤ t)
    (hQ : ∀ e', Rel c h₀ i e' → e'.node.state = .follower → e'.node.currentTerm = t → Q () e') :
    wp (acceptLeader t l a) Q R e := by
  simp only [acceptLeader, wp_bind, wp_get, wp_ite, wp_modify]
  split
  · refine wp_becomeFollower he fun e' he' hs hc => hQ _ (he'.frame rfl) hs ?_
    exact hc.trans (Nat.max_eq_right ht)
  · rename_i hc
    simp only [not_or, Decidable.not_not, Nat.not_lt] at hc
    exact hQ _ (he.frame rfl) hc.2 (Nat.le_antisymm ht hc.1)

/-! ## Membership and quorums -/

omit c h₀ i in
/-- Without CONFIG entries in the log the membership stays the snapshot's. -/
theorem core_refreshConfig {ms : List Member}
    (hlog : ∀ y ∈ e.node.log, parseConfig y.command = none)
    (hc : e.node.snapshotConfig = some ms) (hm : e.members = membersOf ms) :
    e.refreshConfig.core = e.core := by
  have hnone := RaftNode.latestConfig_eq hlog
  have hsame : (membersOf ms).sameItems e.members = true := by rw [hm, Dict.sameItems_self]
  simp only [refreshConfig, hnone, hc, Option.getD_some, hsame, if_true]
  rfl

/-- Starting a replicator only adds match indexes that are 0. -/
theorem core_startReplicator (e : Engine) (p : NodeId) :
    ∃ m, (e.startReplicator p).core = { e.core with matchIndex := m } ∧
      ∀ q k, m.get? q = some k → e.node.matchIndex.get? q = some k ∨ k = 0 := by
  unfold startReplicator
  split
  · exact ⟨_, rfl, fun _ _ hk => Or.inl hk⟩
  · by_cases hn : e.node.nextIndex.contains p = true
    · simp only [hn, if_true]
      exact ⟨_, rfl, fun _ _ hk => Or.inl hk⟩
    · simp only [hn, Bool.false_eq_true, if_false]
      refine ⟨e.node.matchIndex.set p 0, rfl, fun q k hk => ?_⟩
      rw [Dict.get?_set] at hk
      split at hk
      · exact Or.inr (Option.some.inj hk).symm
      · exact Or.inl hk

theorem core_foldl_startReplicator (ps : List NodeId) :
    ∀ e : Engine, ∃ m, (ps.foldl startReplicator e).core = { e.core with matchIndex := m } ∧
      ∀ q k, m.get? q = some k → e.node.matchIndex.get? q = some k ∨ k = 0 := by
  induction ps with
  | nil => exact fun e => ⟨_, rfl, fun _ _ hk => Or.inl hk⟩
  | cons p ps ih =>
      intro e
      obtain ⟨m₁, hc₁, hm₁⟩ := core_startReplicator e p
      obtain ⟨m, hc, hm⟩ := ih (e.startReplicator p)
      refine ⟨m, by rw [List.foldl_cons, hc, hc₁], fun q k hk => ?_⟩
      rcases hm q k hk with hk' | hk'
      · have : (e.startReplicator p).node.matchIndex = m₁ := congrArg Core.matchIndex hc₁
        exact hm₁ q k (this ▸ hk')
      · exact Or.inr hk'

theorem Rel.startReplicators (he : Rel c h₀ i e) : Rel c h₀ i e.startReplicators :=
  he.keep fun h _ _ _ r => by
    obtain ⟨m, hc, hm⟩ := core_foldl_startReplicator e.targets.keys e
    rw [Engine.startReplicators, hc]
    refine r.noteMatch fun _ q k hk => (hm q k hk).imp id fun h0 => ?_
    rw [h0]
    exact Confirmed.zero h _ q

omit i in
theorem keys_membersOf (c : Cluster) : (membersOf c.members).keys = c.ids := by
  rw [membersOf, Dict.keys_ofList, List.map_map]
  · rfl
  · rw [List.map_map]
    exact c.ids_nodup

/-- A majority of the members, as the node counts them, is a quorum. -/
theorem NodeRel.quorum {h : Hist} (r : NodeRel c h i e.core) {p : NodeId → Bool}
    (hp : e.majority ≤ e.countMembers p) : c.Quorum {v | p v = true} := by
  have hm : e.members = membersOf c.members := r.members
  have hsize : e.members.size = c.members.length := by
    rw [← Dict.keys_length, hm, keys_membersOf, Cluster.ids, List.length_map]
  rw [majority, countMembers, hsize, hm, keys_membersOf] at hp
  refine Nat.le_trans hp (Nat.le_of_eq ?_)
  rw [Cluster.countIn]
  congr 1
  funext v
  simp

/-! ## Committing -/

theorem Rel.advanceCommitIndex (he : Rel c h₀ i e) : Rel c h₀ i e.advanceCommitIndex := by
  unfold Engine.advanceCommitIndex
  split
  · exact he
  · rename_i hs
    have hs' : e.core.state = .leader := Decidable.not_not.mp hs
    split
    · rename_i k hk
      refine he.keep fun h _ ok cl r => ?_
      obtain ⟨h1, h2, h3, h4⟩ := scanCommit_spec hk
      have v : e.node.Shows (h.log i) := r.shows
      rw [v.lastLogIndex] at h2
      rw [v.termAt, if_pos ⟨(r.snapshot_le.trans r.applied_le).trans (Nat.le_of_lt h1), h2⟩] at h3
      refine r.setCommit (Nat.le_of_lt h1) h2 ?_
      refine r.quorum_settled hs' (Nat.zero_lt_of_lt h1) h2 (Option.some.inj h3) ?_
      refine (r.quorum h4).of_subset fun v hv => ?_
      simp only [Set.mem_ofPred_eq, decide_eq_true_eq] at hv
      exact hv.imp (fun hh => hh.trans he.nodeId) id
    · exact he

/-! ## Becoming a leader -/

/-- The leader's own log entries: appended in memory and on storage. -/
theorem wp_appendLocal_leader (he : Rel c h₀ i e) (hs : e.node.state = .leader) {y : LogEntry}
    (ht : y.term = e.node.currentTerm) (hi : y.index = e.node.lastLogIndex + 1)
    (hp : parseConfig y.command = none)
    (hQ : ∀ e', Rel c h₀ i e' → Q () e') : wp (appendLocal [y]) Q R e := by
  simp only [appendLocal, wp_bind, wp_modify]
  rw [wp_storageCall_ok (e := e.extendLog [y]) (he.faults _)]
  simp only [List.any_cons, List.any_nil, hp, Option.isSome_none, Bool.or_self,
    Bool.false_eq_true, if_false, wp_pure]
  exact hQ _ (he.move fun h _ ok cl r => r.append ok cl hs ht hi hp)

theorem takeOffice_matchIndex {q : NodeId} {k : Nat}
    (hk : e.takeOffice.node.matchIndex.get? q = some k) : k = 0 := Dict.get?_ofList_const hk

theorem wp_becomeLeader (he : Rel c h₀ i e) (hs : e.node.state = .candidate)
    (hq : e.majority ≤ e.countVotes e.votes) (hQ : ∀ e', Rel c h₀ i e' → Q () e') :
    wp becomeLeader Q R e := by
  have hoffice : Rel c h₀ i e.takeOffice := he.move fun h _ ok cl r => by
    refine r.win ok cl hs ?_ fun q k hk => takeOffice_matchIndex hk
    exact (r.quorum hq).of_subset fun v hv => of_decide_eq_true hv
  simp only [becomeLeader, wp_bind, wp_get, wp_modify]
  refine wp_appendLocal_leader hoffice rfl rfl rfl rfl fun e₁ he₁ => hQ _ ?_
  have hr : Rel c h₀ i { e₁.advanceCommitIndex with replicators := Dict.empty } :=
    he₁.advanceCommitIndex.frame rfl
  exact hr.startReplicators

theorem RelWith.rel {P : Hist → Prop} (he : RelWith c h₀ i P e) : Rel c h₀ i e := by
  obtain ⟨h, g, ok, cl, -, r⟩ := he
  exact ⟨h, g, ok, cl, r⟩

theorem Rel.with (he : Rel c h₀ i e) {P : Hist → Prop}
    (hP : ∀ h, Grows i h₀ h → c.HistOk h → NodeRel c h i e.core → P h) : RelWith c h₀ i P e := by
  obtain ⟨h, g, ok, cl, r⟩ := he
  exact ⟨h, g, ok, cl, hP h g ok r, r⟩

theorem RelWith.keep {P : Hist → Prop} (he : RelWith c h₀ i P e) {e' : Engine}
    (hm : ∀ h, Grows i h₀ h → c.HistOk h → P h → NodeRel c h i e.core →
      NodeRel c h i e'.core) : RelWith c h₀ i P e' := by
  obtain ⟨h, g, ok, cl, hP, r⟩ := he
  exact ⟨h, g, ok, cl, hP, hm h g ok hP r⟩

/-! ## Sending -/

/-- Put right packets on the wire. -/
theorem NodeRel.post {h : Hist} {x : Core} (r : NodeRel c h i x) {ps : List Packet}
    (hp : ∀ p ∈ ps, p.Ok c h) : NodeRel c h i (x.post ps) :=
  r.setQueues r.applying r.installing (fun _ hy => Or.inl hy) (fun _ hy => Or.inl hy)
    (fun _ hy => Or.inl hy) fun p hm => (List.mem_append.mp hm).imp id (hp p)

theorem Rel.send (he : Rel c h₀ i e) {p : Packet}
    (hp : ∀ h, Grows i h₀ h → NodeRel c h i e.core → p.Ok c h) : Rel c h₀ i (e.send p) :=
  he.keep fun h g _ _ r => r.post fun _ hq => List.mem_singleton.mp hq ▸ hp h g r

/-- The envelope a node puts around a call. -/
def Engine.envelope (e : Engine) (address : String) (call : Call) : Envelope where
  src := e.nodeId
  epoch := e.epoch
  address := address
  call := call

theorem core_sendCall (e : Engine) (a : String) (call : Call) :
    (e.sendCall a call).core = e.core.post [.call (e.envelope a call)] := rfl

theorem core_foldl_sendCall (f : Member → Call) (ps : List Member) :
    ∀ e : Engine, (ps.foldl (fun e p => e.sendCall p.raftAddress (f p)) e).core =
      e.core.post (ps.map fun p => .call (e.envelope p.raftAddress (f p))) := by
  induction ps with
  | nil => exact fun e => by simp [Core.post]
  | cons p ps ih =>
      intro e
      rw [List.foldl_cons, ih, core_sendCall, Core.post_post]
      rfl

theorem mem_voters {h : Hist} (r : NodeRel c h i e.core) {m : Member} (hm : m ∈ e.voters) :
    c.At m.nodeId m.raftAddress := by
  have hmem : e.members = membersOf c.members := r.members
  have hitems : (membersOf c.members).items = c.members.map fun m => (m.nodeId, m) :=
    Dict.items_ofList (by rw [List.map_map]; exact c.ids_nodup)
  have hv : e.members.values = c.members := by
    rw [hmem, Dict.values, hitems, List.map_map]
    exact List.map_id _
  rw [voters, hv] at hm
  exact ⟨m, (List.mem_filter.mp hm).1, rfl, rfl⟩

theorem NodeRel.nodeId {h : Hist} (r : NodeRel c h i e.core) : e.nodeId = i := by
  rw [Engine.nodeId, show e.settings = c.settings i from r.settings]
  rfl

/-- Calls to all other members, right for each of them. -/
theorem NodeRel.callVoters {h : Hist} (r : NodeRel c h i e.core) {call : Member → Call}
    (hp : ∀ m, c.At m.nodeId m.raftAddress → (call m).Ok c h i m.raftAddress) :
    NodeRel c h i (e.callVoters call).core := by
  rw [Engine.callVoters, core_foldl_sendCall]
  refine r.post fun p hm => ?_
  obtain ⟨m, hv, rfl⟩ := List.mem_map.mp hm
  have := hp m (mem_voters r hv)
  rw [← r.nodeId] at this
  exact this

/-- A candidate's request states the log it stands with. -/
theorem RelWith.requestVotes
    (he : RelWith c h₀ i (fun h => h.campaign i e.node.currentTerm (h.log i)) e)
    (transfer : Bool) : Rel c h₀ i (e.requestVotes transfer) :=
  (he.keep fun h _ _ hP r => r.callVoters fun m hm => by
    have v : e.node.Shows (h.log i) := r.shows
    refine ⟨hm, r.nodeId, rfl, fun _ => ⟨h.log i, ?_, v.lastLogIndex, v.lastLogTerm⟩⟩
    rw [voteRequest, r.nodeId]
    exact hP).rel

theorem Rel.requestPreVotes (he : Rel c h₀ i e) : Rel c h₀ i e.requestPreVotes :=
  he.keep fun h _ _ _ r => by
    have r' : NodeRel c h i { e.resetElectionTimer with grants := [e.nodeId] }.core := r
    exact r'.callVoters fun _ _ => rfl

/-! ## Becoming a candidate -/

theorem wp_becomeCandidate (he : Rel c h₀ i e) (transfer : Bool)
    (hQ : ∀ e', Rel c h₀ i e' → Q () e') : wp (becomeCandidate transfer) Q R e := by
  simp only [becomeCandidate, persistTermAndVote, wp_bind, wp_get, wp_modify]
  rw [wp_storageCall_ok (e := e.standForElection) (he.faults _)]
  simp only [wp_bind, wp_get, wp_modify, wp_ite]
  generalize hs : e.standForElection.store _ = s
  have hcand : RelWith c h₀ i (fun h => h.campaign i s.node.currentTerm (h.log i))
      s.openBallot := by
    subst hs
    obtain ⟨h, g, ok, cl, r⟩ := he
    obtain ⟨h', g', ok', cl', hc, r'⟩ := r.stand ok cl
    refine ⟨h', g.trans g', ok', cl', hc, ?_⟩
    rw [← r.nodeId] at r' ⊢
    exact r'
  split
  · rename_i hq
    exact wp_becomeLeader hcand.rel (by subst hs; rfl) hq hQ
  · have hreset : RelWith c h₀ i (fun h => h.campaign i s.node.currentTerm (h.log i))
        s.openBallot.resetElectionTimer := hcand.keep fun _ _ _ _ r => r
    exact hQ _ (RelWith.requestVotes hreset transfer)

/-! ## Votes -/

section Votes

variable {req : RequestVoteRequest}

/-- A granted answer to a real vote request is a vote. -/
def VoteAnswer (i : NodeId) (req : RequestVoteRequest) (resp : RequestVoteResponse) (h : Hist) :
    Prop :=
  resp.voteGranted = true → req.preVote = false → ∃ l, h.grant i req.term req.candidateId l

omit e in
theorem Rel.denied {e : Engine} (he : Rel c h₀ i e) (t : Nat) :
    RelWith c h₀ i (VoteAnswer i req { term := t, voteGranted := false }) e :=
  he.with fun _ _ _ _ hv => nomatch hv

theorem wp_decideVote (hreq : VoteOk h₀ req) (hp : req.preVote = false) (he : Rel c h₀ i e)
    (hcur : req.term ≤ e.node.currentTerm) :
    wp (decideVote req) (fun a => RelWith c h₀ i (VoteAnswer i req a)) (fun _ => Rel c h₀ i) e := by
  simp only [decideVote, persistTermAndVote, wp_bind, wp_get, wp_ite, wp_pure, wp_modify]
  split
  · exact he.denied _
  · rename_i hn
    simp only [not_or, Nat.not_lt, not_and, Decidable.not_not] at hn
    obtain ⟨h1, h2, h3⟩ := hn
    have hterm : req.term = e.core.currentTerm := Nat.le_antisymm hcur h1
    rw [wp_storageCall_ok (e := e.castVote req.candidateId) (he.faults _)]
    obtain ⟨h, g, ok, cl, r⟩ := he
    obtain ⟨b, hb, hlen, hlast⟩ := hreq.mono g hp
    have v : e.node.Shows (h.log i) := r.shows
    have hup : UpToDate LogEntry.term b (h.log i) := by
      simp only [logOk, decide_eq_true_eq, v.lastLogTerm, v.lastLogIndex, hlen, hlast] at h3
      exact h3
    have hfree : e.node.votedFor = none ∨ e.node.votedFor = some req.candidateId := by
      by_cases hv : e.node.votedFor = none
      · exact Or.inl hv
      · exact Or.inr (h2 hv)
    obtain ⟨h', g', ok', cl', hg, r'⟩ := r.castVote ok cl (hterm ▸ hb) hup hfree
    exact ⟨h', g.trans g', ok', cl', fun _ _ => ⟨_, hterm ▸ hg⟩, r'⟩

theorem wp_handleRequestVote (hreq : VoteOk h₀ req) (he : Rel c h₀ i e) :
    wp (handleRequestVote req) (fun a => RelWith c h₀ i (VoteAnswer i req a))
      (fun _ => Rel c h₀ i) e := by
  simp only [handleRequestVote, wp_bind, wp_get, wp_ite, wp_pure]
  split
  · rename_i hp
    exact he.with fun _ _ _ _ _ hn => by simp [hp] at hn
  · rename_i hp
    have hp' : req.preVote = false := by simpa using hp
    split
    · exact he.denied _
    · split
      · exact wp_becomeFollower he fun e' he' _ hc =>
          wp_decideVote hreq hp' he' (hc ▸ Nat.le_max_right _ _)
      · rename_i hge
        exact wp_decideVote hreq hp' he (Nat.le_of_not_lt hge)

end Votes

end Rel

end KvCache
