import KvCache.Cluster
import KvCache.FullLog
import KvCache.QuorumLogMoves

/-!
# The invariant of a cluster with fixed membership

A `QuorumLog.History` over the cluster's nodes says what has happened: who
stood, who voted, who won and what was acknowledged. This file relates a
world to such a history, one node and one packet at a time:

- `NodeRel` for what a node holds. Its snapshot boundary and log show its
  full log, what it has committed is settled, its vote is the one it
  granted, a leader's log is the log of its term and what it believes about
  a follower was acknowledged (`Confirmed`), its storage is in step.
- `Packet.Ok` for what is on the wire. A vote request states the
  candidate's log, an AppendEntries request is a piece of the leader's log,
  a granted vote was granted, a success was acknowledged.

Every fact about packets only speaks of the history, which never forgets
(`Grows`), so a packet stays right however late it arrives. A node's
relation survives the moves of all other nodes (`NodeRel.mono`); the moves
of the node itself are in `ClusterMoves`.
-/

namespace KvCache

open QuorumLog QuorumLog.History
open MemoryRaftStorage (Holds)

/-- The part of an engine that safety depends on. -/
structure Core where
  settings : Settings
  faults : StorageCall → List Bool
  storage : MemoryRaftStorage
  currentTerm : Nat
  votedFor : Option NodeId
  log : List LogEntry
  state : RaftState
  commitIndex : Nat
  lastApplied : Nat
  snapshotIndex : Nat
  snapshotTerm : Nat
  snapshotConfig : Option (List Member)
  matchIndex : Dict NodeId Nat
  members : Dict NodeId Member
  learners : Dict NodeId Member
  termStartIndex : Nat
  ledTerm : Nat
  votes : List NodeId
  applyLock : ApplyLock
  installs : List Install
  outgoing : List Outgoing
  transfers : List Transfer
  configChange : Option ConfigChange
  outbox : List Packet

def Engine.core (e : Engine) : Core where
  settings := e.settings
  faults := e.faults
  storage := e.storage
  currentTerm := e.node.currentTerm
  votedFor := e.node.votedFor
  log := e.node.log
  state := e.node.state
  commitIndex := e.node.commitIndex
  lastApplied := e.node.lastApplied
  snapshotIndex := e.node.snapshotIndex
  snapshotTerm := e.node.snapshotTerm
  snapshotConfig := e.node.snapshotConfig
  matchIndex := e.node.matchIndex
  members := e.members
  learners := e.learners
  termStartIndex := e.termStartIndex
  ledTerm := e.ledTerm
  votes := e.votes
  applyLock := e.applyLock
  installs := e.installs
  outgoing := e.outgoing
  transfers := e.transfers
  configChange := e.configChange
  outbox := e.outbox

/-- The log changes, in memory and on storage. -/
def Core.withLog (x : Core) (log : List LogEntry) (st : MemoryRaftStorage) : Core :=
  { x with log := log, storage := st }

/-- The snapshots a node has received and not yet installed. -/
def Core.pending (x : Core) : List Install :=
  match x.applyLock with
  | .installing install => install :: x.installs
  | _ => x.installs

theorem Core.mem_pending {x : Core} {y : Install} :
    y ∈ x.pending ↔ x.applyLock = .installing y ∨ y ∈ x.installs := by
  unfold Core.pending
  split
  · rename_i z hz
    rw [hz, List.mem_cons, ApplyLock.installing.injEq, eq_comm]
  · rename_i hz
    exact ⟨Or.inr, fun hy => hy.resolve_left (hz y)⟩

/-! ## Quorums -/

namespace Cluster

variable (c : Cluster)

open scoped Classical in
/-- More than half of the members. -/
noncomputable def countIn (A : Set NodeId) : Nat := c.ids.countP fun v => decide (v ∈ A)

def Quorum (A : Set NodeId) : Prop := c.members.length / 2 + 1 ≤ c.countIn A

/-- Two predicates that together hold more often than there are elements
share an element. -/
theorem exists_of_countP {α : Type} {p q : α → Bool} {l : List α}
    (h : l.length < l.countP p + l.countP q) : ∃ a ∈ l, p a = true ∧ q a = true := by
  induction l with
  | nil => simp at h
  | cons a l ih =>
      by_cases hpq : p a = true ∧ q a = true
      · exact ⟨a, by simp, hpq⟩
      · have hl : l.length < l.countP p + l.countP q := by
          simp only [List.countP_cons, List.length_cons] at h
          split at h <;> split at h <;> simp_all <;> omega
        obtain ⟨b, hb, hpq'⟩ := ih hl
        exact ⟨b, by simp [hb], hpq'⟩

/-- Any two quorums share a member. -/
theorem quorum_inter (A B : Set NodeId) (hA : c.Quorum A) (hB : c.Quorum B) :
    ∃ v, v ∈ A ∧ v ∈ B := by
  have hlen : c.ids.length = c.members.length := by simp [ids]
  have h : c.ids.length < c.countIn A + c.countIn B := by
    unfold Quorum at hA hB
    omega
  obtain ⟨v, -, hv⟩ := exists_of_countP h
  exact ⟨v, by simpa using hv⟩

theorem Quorum.of_subset {c : Cluster} {A B : Set NodeId} (hA : c.Quorum A) (h : A ⊆ B) :
    c.Quorum B := by
  refine Nat.le_trans hA (List.countP_mono_left fun v _ hv => ?_)
  simpa using h (by simpa using hv)

/-- A node listens at `address` and its id is `peer`. -/
def At (peer : NodeId) (address : String) : Prop :=
  ∃ m ∈ c.members, m.nodeId = peer ∧ m.raftAddress = address

abbrev Hist := History NodeId LogEntry

abbrev HistOk (h : Hist) : Prop := h.Ok LogEntry.term c.Quorum

abbrev Settled (h : Hist) (t : Nat) (p : List LogEntry) : Prop :=
  h.Settled LogEntry.term c.Quorum t p

end Cluster

abbrev Hist := Cluster.Hist

/-! ## Logs without CONFIG entries -/

/-- Aligned, and no entry changes the membership. -/
def Clean (l : List LogEntry) : Prop := Aligned l ∧ ∀ x ∈ l, parseConfig x.command = none

theorem Clean.shorten {l l' : List LogEntry} (hl : Clean l) (hp : l' <+: l) : Clean l' :=
  ⟨hl.1.shorten hp, fun x hx => hl.2 x (hp.subset hx)⟩

/-- The log of every leader is clean. -/
def LeadsClean (h : Hist) : Prop := ∀ t, h.Won t → Clean (h.lead t)

theorem LeadsClean.backed {h : Hist} (hc : LeadsClean h) {l : List LogEntry}
    (hl : h.Backed LogEntry.term l) : Clean l := by
  by_cases hne : l = []
  · subst l
    exact ⟨Aligned.nil, by simp⟩
  · obtain ⟨hp, hw⟩ := hl.prefix_lead hne
    exact (hc _ hw).shorten hp

/-! ## Packets -/

section Packets

variable (c : Cluster) (h : Hist)

/-- A vote request: the candidate's log, unless it is a pre-vote. -/
def VoteOk (r : RequestVoteRequest) : Prop :=
  r.preVote = false → ∃ b, h.campaign r.candidateId r.term b ∧
    r.lastLogIndex = b.length ∧ r.lastLogTerm = lastTerm b

/-- An AppendEntries request: a piece of the log of the leader of its term,
and a commit index that is settled there. -/
structure AppendOk (r : AppendEntriesRequest) : Prop where
  won : h.Won r.term
  piece : ∃ q, q <+: h.lead r.term ∧ r.entries = q.drop r.prevLogIndex ∧
    ∀ u, r.prevLogTerm = some u →
      r.prevLogIndex ≤ q.length ∧ u = lastTerm (q.take r.prevLogIndex)
  commit : r.leaderCommit ≤ (h.lead r.term).length ∧
    c.Settled h r.term ((h.lead r.term).take r.leaderCommit)

/-- A snapshot sent in term `t`: it stands for a settled prefix. -/
def SnapshotOk (t index term : Nat) (config : List Member) : Prop :=
  h.Won t ∧ config = c.members ∧
    ∃ s, s.length = index ∧ lastTerm s = term ∧ c.Settled h t s

def TransferOk (t : Transfer) : Prop :=
  c.At t.peer t.address ∧ SnapshotOk c h t.term t.index t.lastTerm t.config

def InstallOk (r : InstallSnapshotRequest) : Prop :=
  SnapshotOk c h r.term r.lastIncludedIndex r.lastIncludedTerm (r.config.getD [])

def Call.Ok (src : NodeId) (address : String) : Call → Prop
  | .preVote _ r _ => r.preVote = true
  | .requestVote peer r =>
    c.At peer address ∧ r.candidateId = src ∧ r.preVote = false ∧ VoteOk h r
  | .appendEntries peer r _ => c.At peer address ∧ AppendOk c h r
  | .installSnapshot r t => c.At t.peer address ∧ InstallOk c h r ∧ TransferOk c h t
  | .timeoutNow _ _ | .readIndex _ _ => True

def Envelope.Ok (env : Envelope) : Prop := env.call.Ok c h env.src env.address

/-- What a reply proves about the history. -/
def ReplyOk (env : Envelope) (response : Response) : Prop :=
  match env.call, response with
  | .requestVote peer r, .requestVote v =>
    v.voteGranted = true → ∃ l, h.grant peer r.term env.src l
  | .appendEntries peer r _, .appendEntries a =>
    c.At peer env.address ∧ (a.success = true → ∃ p, h.acked peer r.term p ∧
      p.length = a.matchIndex ∧ r.prevLogIndex + r.entries.length ≤ a.matchIndex)
  | .installSnapshot r t, .installSnapshot _ =>
    c.At t.peer env.address ∧ InstallOk c h r ∧ TransferOk c h t
  | _, _ => True

def Packet.Ok : Packet → Prop
  | .call env => env.Ok c h
  | .reply env response => ReplyOk c h env response

def Outgoing.Ok : Outgoing → Prop
  | .entries peer address r => c.At peer address ∧ AppendOk c h r
  | .snapshotDue peer address _ => c.At peer address
  | .snapshot t => TransferOk c h t

end Packets

/-! ## Nodes -/

/-- In term `t` it is known that `peer` holds the leader's log up to `m`: it
is settled, or `peer` acknowledged it. -/
def Confirmed (c : Cluster) (h : Hist) (t : Nat) (peer : NodeId) (m : Nat) : Prop :=
  m ≤ (h.lead t).length ∧
    (c.Settled h t ((h.lead t).take m) ∨ ∃ p, h.acked peer t p ∧ (h.lead t).take m <+: p)

/-- Storage and memory agree. -/
structure Stored (x : Core) : Prop where
  term : x.storage.term = x.currentTerm
  vote : x.storage.votedFor = x.votedFor
  snapshotIndex : x.storage.snapshotIndex = x.snapshotIndex
  snapshotTerm : x.storage.snapshotTerm = x.snapshotTerm
  config : x.storage.config = x.snapshotConfig
  applied : x.storage.lastApplied ≤ x.commitIndex
  log : Holds x.storage.entries x.snapshotIndex x.log

/-- The entry at index `k` is decided: it is `y` in every log that is settled
there. -/
def Decided (c : Cluster) (h : Hist) (k : Nat) (y : LogEntry) : Prop :=
  ∃ t p, c.Settled h t p ∧ 0 < k ∧ p[k - 1]? = some y

/-- What a leader knows. -/
structure LeaderRel (c : Cluster) (h : Hist) (i : NodeId) (x : Core) : Prop where
  elected : ∃ b, h.elected x.currentTerm i b
  led : x.ledTerm = x.currentTerm
  log : h.log i = h.lead x.currentTerm
  acked : h.acked i x.currentTerm (h.log i)
  known : ∀ p m, x.matchIndex.get? p = some m → Confirmed c h x.currentTerm p m

/-- What a candidate knows. Its log is the one it stands with, unless a
snapshot replaced it; then that log lacks something committed before, so the
election is lost. -/
structure CandidateRel (c : Cluster) (h : Hist) (i : NodeId) (x : Core) : Prop where
  notElected : ∀ b, ¬ h.elected x.currentTerm i b
  votes : ∀ v ∈ x.votes, ∃ l, h.grant v x.currentTerm i l
  campaign : ∃ b, h.campaign i x.currentTerm b ∧
    (h.log i = b ∨ ∃ t p, t < x.currentTerm ∧ h.Committed LogEntry.term c.Quorum t p ∧ ¬ p <+: b)

/-- What a node has received, built and sent is right. -/
structure QueuesOk (c : Cluster) (h : Hist) (pending : List Install) (outgoing : List Outgoing)
    (transfers : List Transfer) (outbox : List Packet) : Prop where
  pending : ∀ y ∈ pending, y.env.Ok c h ∧ InstallOk c h y.request
  outgoing : ∀ y ∈ outgoing, y.Ok c h
  transfers : ∀ y ∈ transfers, TransferOk c h y
  outbox : ∀ p ∈ outbox, p.Ok c h

/-- What node `i` has, in terms of the history. -/
structure NodeRel (c : Cluster) (h : Hist) (i : NodeId) (x : Core) : Prop where
  settings : x.settings = c.settings i
  faults : ∀ k, x.faults k = []
  noChange : x.configChange = none
  config : x.snapshotConfig = some c.members
  members : x.members = Engine.membersOf c.members
  learners : x.learners = Dict.empty
  cur : h.cur i = x.currentTerm
  shows : Shows x.snapshotIndex x.snapshotTerm x.log (h.log i)
  commit_le : x.commitIndex ≤ (h.log i).length
  commit : c.Settled h x.currentTerm ((h.log i).take x.commitIndex)
  applied_le : x.lastApplied ≤ x.commitIndex
  snapshot_le : x.snapshotIndex ≤ x.lastApplied
  applying : ∀ k y, x.applyLock = .applying k y → k ≤ x.commitIndex ∧ Decided c h k y
  installing : ∀ y, x.applyLock = .installing y → x.lastApplied < y.request.lastIncludedIndex
  vote : ∀ d l, h.grant i x.currentTerm d l → x.votedFor = some d
  stored : Stored x
  leader : x.state = .leader → LeaderRel c h i x
  candidate : x.state = .candidate → CandidateRel c h i x
  office : x.ledTerm = 0 ∨ ∃ b, h.elected x.ledTerm i b ∧ x.termStartIndex = b.length + 1
  pending : ∀ y ∈ x.pending, y.request.term ≤ x.currentTerm ∧
    (x.state ≠ .follower → y.request.term < x.currentTerm) ∧ y.env.address = c.address i
  queues : QueuesOk c h x.pending x.outgoing x.transfers x.outbox

/-! ## Nothing is forgotten -/

section Mono

variable {c : Cluster} {h h' : Hist} {i : NodeId}

theorem VoteOk.mono (g : Grows i h h') {r : RequestVoteRequest} (hr : VoteOk h r) :
    VoteOk h' r := by
  intro hp
  obtain ⟨b, hb, h1, h2⟩ := hr hp
  exact ⟨b, g.campaign hb, h1, h2⟩

/-- What a leader has written stays where it is. -/
theorem take_lead_mono (g : Grows i h h') {t m : Nat} (hw : h.Won t)
    (hm : m ≤ (h.lead t).length) : (h'.lead t).take m = (h.lead t).take m := by
  obtain ⟨s, hs⟩ := g.lead hw
  rw [← hs, List.take_append_of_le_length hm]

theorem length_lead_mono (g : Grows i h h') {t : Nat} (hw : h.Won t) :
    (h.lead t).length ≤ (h'.lead t).length := (g.lead hw).length_le

theorem AppendOk.mono (g : Grows i h h') {r : AppendEntriesRequest} (hr : AppendOk c h r) :
    AppendOk c h' r where
  won := g.won hr.won
  piece := by
    obtain ⟨q, hq, h1, h2⟩ := hr.piece
    exact ⟨q, hq.trans (g.lead hr.won), h1, h2⟩
  commit := by
    obtain ⟨h1, h2⟩ := hr.commit
    refine ⟨h1.trans (length_lead_mono g hr.won), ?_⟩
    rw [take_lead_mono g hr.won h1]
    exact g.settled (Nat.le_refl _) h2

theorem SnapshotOk.mono (g : Grows i h h') {t index term : Nat} {config : List Member}
    (hs : SnapshotOk c h t index term config) : SnapshotOk c h' t index term config := by
  obtain ⟨hw, hc, s, h1, h2, h3⟩ := hs
  exact ⟨g.won hw, hc, s, h1, h2, g.settled (Nat.le_refl _) h3⟩

theorem TransferOk.mono (g : Grows i h h') {t : Transfer} (ht : TransferOk c h t) :
    TransferOk c h' t := ⟨ht.1, SnapshotOk.mono g ht.2⟩

theorem InstallOk.mono (g : Grows i h h') {r : InstallSnapshotRequest} (hr : InstallOk c h r) :
    InstallOk c h' r := SnapshotOk.mono g hr

theorem Envelope.Ok.mono (g : Grows i h h') {env : Envelope} (he : env.Ok c h) :
    env.Ok c h' := by
  unfold Envelope.Ok at he ⊢
  cases hc : env.call <;> rw [hc] at he
  · exact he
  · exact ⟨he.1, he.2.1, he.2.2.1, he.2.2.2.mono g⟩
  · exact ⟨he.1, he.2.mono g⟩
  · exact ⟨he.1, he.2.1.mono g, he.2.2.mono g⟩
  · trivial
  · trivial

theorem ReplyOk.mono (g : Grows i h h') {env : Envelope} {r : Response}
    (hr : ReplyOk c h env r) : ReplyOk c h' env r := by
  unfold ReplyOk at hr ⊢
  split
  · rename_i hc
    simp only [hc] at hr
    exact fun hv => (hr hv).imp fun _ => g.grant
  · rename_i hc
    simp only [hc] at hr
    exact ⟨hr.1, fun hs => (hr.2 hs).imp fun _ hp => ⟨g.acked hp.1, hp.2⟩⟩
  · rename_i hc
    simp only [hc] at hr
    exact ⟨hr.1, hr.2.1.mono g, hr.2.2.mono g⟩
  · trivial

theorem Packet.Ok.mono (g : Grows i h h') {p : Packet} (hp : p.Ok c h) : p.Ok c h' := by
  cases p with
  | call env => exact Envelope.Ok.mono g hp
  | reply env r => exact ReplyOk.mono g hp

theorem Outgoing.Ok.mono (g : Grows i h h') {o : Outgoing} (ho : o.Ok c h) : o.Ok c h' := by
  cases o with
  | entries peer address r => exact ⟨ho.1, ho.2.mono g⟩
  | snapshotDue peer address t => exact ho
  | snapshot t => exact TransferOk.mono g ho

theorem QueuesOk.mono (g : Grows i h h') {pending : List Install} {outgoing : List Outgoing}
    {transfers : List Transfer} {outbox : List Packet}
    (q : QueuesOk c h pending outgoing transfers outbox) :
    QueuesOk c h' pending outgoing transfers outbox where
  pending y hy := ⟨(q.pending y hy).1.mono g, (q.pending y hy).2.mono g⟩
  outgoing y hy := (q.outgoing y hy).mono g
  transfers y hy := (q.transfers y hy).mono g
  outbox p hp := (q.outbox p hp).mono g

theorem Confirmed.mono (g : Grows i h h') {t m : Nat} {p : NodeId} (hw : h.Won t)
    (hm : Confirmed c h t p m) : Confirmed c h' t p m := by
  obtain ⟨h1, h2⟩ := hm
  refine ⟨h1.trans (length_lead_mono g hw), ?_⟩
  rw [take_lead_mono g hw h1]
  rcases h2 with h2 | ⟨q, hq, hp⟩
  · exact Or.inl (g.settled (Nat.le_refl _) h2)
  · exact Or.inr ⟨q, g.acked hq, hp⟩

theorem Decided.mono (g : Grows i h h') {k : Nat} {y : LogEntry} (hd : Decided c h k y) :
    Decided c h' k y := by
  obtain ⟨t, p, hp, hk⟩ := hd
  exact ⟨t, p, g.settled (Nat.le_refl _) hp, hk⟩

/-- The part of `NodeRel` about the entry being applied is never lost. -/
theorem applying_mono (g : Grows i h h') {lock : ApplyLock} {m m' : Nat} (hm : m ≤ m')
    (ha : ∀ k y, lock = .applying k y → k ≤ m ∧ Decided c h k y) :
    ∀ k y, lock = .applying k y → k ≤ m' ∧ Decided c h' k y := fun k y hk =>
  ⟨(ha k y hk).1.trans hm, (ha k y hk).2.mono g⟩

theorem office_mono (g : Grows i h h') {j : NodeId} {t m : Nat}
    (ho : t = 0 ∨ ∃ b, h.elected t j b ∧ m = b.length + 1) :
    t = 0 ∨ ∃ b, h'.elected t j b ∧ m = b.length + 1 :=
  ho.imp id (Exists.imp fun _ hb => ⟨g.elected hb.1, hb.2⟩)

theorem LeaderRel.mono {j : NodeId} (g : Grows j h h') {x : Core} (hj : i ≠ j)
    (hr : LeaderRel c h i x) : LeaderRel c h' i x := by
  obtain ⟨b, hb⟩ := hr.elected
  have hlog := (g.others hj).2
  exact
    { elected := ⟨b, g.elected hb⟩
      led := hr.led
      log := by rw [hlog, hr.log, g.lead_of_ne hj hb]
      acked := by
        rw [hlog]
        exact g.acked hr.acked
      known := fun p m hm => (hr.known p m hm).mono g ⟨i, b, hb⟩ }

theorem CandidateRel.mono {j : NodeId} (g : Grows j h h') {x : Core} (hj : i ≠ j)
    (hr : CandidateRel c h i x) : CandidateRel c h' i x where
  notElected b hb := hr.notElected b (g.elected_of_ne hj hb)
  votes v hv := (hr.votes v hv).imp fun _ => g.grant
  campaign := by
    obtain ⟨b, hb, hl⟩ := hr.campaign
    refine ⟨b, g.campaign hb, ?_⟩
    rw [(g.others hj).2]
    exact hl.imp id fun ⟨t, p, h1, h2, h3⟩ => ⟨t, p, h1, g.committed h2, h3⟩

/-- The moves of the other nodes do not touch what a node has. -/
theorem NodeRel.mono {j : NodeId} (g : Grows j h h') {x : Core} (hj : i ≠ j)
    (hr : NodeRel c h i x) : NodeRel c h' i x :=
  have hlog := (g.others hj).2
  { hr with
    cur := (g.others hj).1.trans hr.cur
    shows := hlog ▸ hr.shows
    commit_le := hlog ▸ hr.commit_le
    commit := by
      rw [hlog]
      exact g.settled (Nat.le_refl _) hr.commit
    vote := fun d l hg => hr.vote d l (g.grant_of_ne hj hg)
    applying := applying_mono g (Nat.le_refl _) hr.applying
    office := office_mono g hr.office
    leader := fun hs => (hr.leader hs).mono g hj
    candidate := fun hs => (hr.candidate hs).mono g hj
    queues := hr.queues.mono g }

end Mono

end KvCache
