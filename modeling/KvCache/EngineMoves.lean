import Mathlib.Logic.Relation
import KvCache.Progress

/-!
# What a section does, move by move

Every section is a sequence of a few kinds of moves (`Move`): a storage call
together with the change in memory that belongs to it, a change of role, an
entry appended, a packet sent. A move that calls the storage has a second
form, in which the call raises and the section ends. `moves_step` says so of
every event but a restart; an invariant of the engine is then proved by one
case for each kind of move.

What nobody relies on later is not told apart: timers, contacts, next
indexes, reads and handovers (`gist`).
-/

namespace KvCache

open StateWp Engine

/-- The engine without what moves by itself. -/
def Engine.gist (e : Engine) : Engine :=
  { e with
    clock := 0
    node := { e.node with leaderId := none, nextIndex := Dict.empty }
    lastContact := Dict.empty
    sendSeq := 0
    lastAckSeq := Dict.empty
    lastLeaderContact := 0
    leaderAddress := ""
    timerGeneration := 0
    replicators := Dict.empty
    wakeups := 0
    grants := []
    nextCall := 0
    handovers := []
    reads := [] }

namespace Engine

/-- A storage call that did not raise. -/
def stored (e : Engine) (call : StorageCall) (f : MemoryRaftStorage → MemoryRaftStorage) :
    Engine := (e.useFault call).store f

/-- Term and vote are saved. -/
def saveVote (e : Engine) : Engine :=
  e.stored .saveTermAndVote fun s => s.saveTermAndVote e.node.currentTerm e.node.votedFor

/-- `_append_local` once storage has the entries. -/
def appended (e : Engine) (entries : List LogEntry) : Engine :=
  let e := (e.extendLog entries).stored .append (·.append entries)
  if entries.any fun x => (parseConfig x.command).isSome then e.refreshConfig else e

/-- `_truncate_local` once storage has dropped the entries. -/
def truncated (e : Engine) (index : Nat) : Engine :=
  ((e.cutLog index).stored .truncateFrom (·.truncateFrom index)).refreshConfig

/-- `propose` has appended its entry and waits. -/
def proposed (e : Engine) (entry : LogEntry) (timeout : Nat) : Engine :=
  (((e.appended [entry]).addWaiter entry.index).advanceCommitIndex).addProposal entry timeout

/-- `_maybe_snapshot`, before the storage knows. -/
def folded (e : Engine) : Engine :=
  e.compact e.node.lastApplied ((e.node.termAt e.node.lastApplied).getD 0)
    (e.node.configAt e.node.lastApplied)

def compacted (e : Engine) : Engine :=
  e.folded.stored .saveSnapshot fun s => s.saveSnapshot e.node.lastApplied
    ((e.node.termAt e.node.lastApplied).getD 0) e.node.lastApplied
    (e.node.configAt e.node.lastApplied)

/-- Whether a snapshot replaces the whole log. -/
def Mismatch (e : Engine) (req : InstallSnapshotRequest) : Prop :=
  e.node.termAt req.lastIncludedIndex ≠ some req.lastIncludedTerm

instance (e : Engine) (req : InstallSnapshotRequest) : Decidable (e.Mismatch req) :=
  inferInstanceAs (Decidable (_ ≠ _))

/-- A snapshot's log is adopted, before the storage knows. -/
def uprooted (e : Engine) (req : InstallSnapshotRequest) : Engine :=
  if e.Mismatch req then
    (e.stored .truncateFrom (·.truncateFrom (e.node.snapshotIndex + 1))).adoptSnapshot req
  else e.adoptSnapshot req

def installed (e : Engine) (req : InstallSnapshotRequest) : Engine :=
  let e := e.uprooted req
  (e.stored .saveSnapshot fun s => s.saveSnapshot e.node.snapshotIndex e.node.snapshotTerm
    e.node.lastApplied (some (req.config.getD []))).refreshConfig

end Engine

/-! ## What adopting a membership leaves alone -/

/-- What a leader tracks of its followers. -/
structure Tracking where
  nextIndex : Dict NodeId Nat
  matchIndex : Dict NodeId Nat
  lastContact : Dict NodeId Nat
  replicators : Dict NodeId Nat
  wakeups : Nat

namespace Engine

def tracking (e : Engine) (d : Tracking) : Engine :=
  { e with
    node := { e.node with nextIndex := d.nextIndex, matchIndex := d.matchIndex }
    lastContact := d.lastContact
    replicators := d.replicators
    wakeups := d.wakeups }

/-- Another membership, with the tracking that comes with it. -/
def adopting (e : Engine) (d : Tracking) (index : Nat) (members learners : Dict NodeId Member) :
    Engine :=
  { e.tracking d with configIndex := index, members := members, learners := learners }

/-- No match index is higher than before. -/
def Forgets (d : Tracking) (e : Engine) : Prop :=
  ∀ p, d.matchIndex.getD p 0 = e.node.matchIndex.getD p 0 ∨ d.matchIndex.getD p 0 = 0

end Engine

theorem startReplicator_eq (e : Engine) (p : NodeId) :
    ∃ d : Tracking, e.startReplicator p = e.tracking d ∧ e.Forgets d := by
  unfold Engine.startReplicator
  split
  · exact ⟨⟨e.node.nextIndex, e.node.matchIndex, e.lastContact, e.replicators, e.wakeups⟩, rfl,
      fun _ => Or.inl rfl⟩
  · split
    · exact ⟨⟨e.node.nextIndex, e.node.matchIndex, e.lastContact, _, _⟩, rfl, fun _ => Or.inl rfl⟩
    · refine ⟨⟨_, e.node.matchIndex.set p 0, _, _, _⟩, rfl, fun q => ?_⟩
      dsimp only
      unfold Dict.getD
      rw [Dict.get?_set]
      split
      · exact Or.inr rfl
      · exact Or.inl rfl

theorem startReplicators_eq (e : Engine) :
    ∃ d : Tracking, e.startReplicators = e.tracking d ∧ e.Forgets d := by
  unfold Engine.startReplicators
  generalize e.targets.keys = ps
  induction ps generalizing e with
  | nil =>
      exact ⟨⟨e.node.nextIndex, e.node.matchIndex, e.lastContact, e.replicators, e.wakeups⟩, rfl,
        fun _ => Or.inl rfl⟩
  | cons p ps ih =>
      obtain ⟨d, hd, hle⟩ := startReplicator_eq e p
      obtain ⟨d', hd', hle'⟩ := ih (e.tracking d)
      rw [List.foldl_cons, hd, hd']
      refine ⟨d', rfl, fun q => ?_⟩
      rcases hle' q with h | h
      · rcases hle q with h' | h'
        · exact Or.inl (h.trans h')
        · exact Or.inr (h.trans h')
      · exact Or.inr h

/-- The members in force are those of the newest CONFIG entry. -/
def Engine.Current (e : Engine) (members : Dict NodeId Member) : Prop :=
  (membersOf (e.node.latestConfig.2.getD [])).sameItems members = true

theorem refreshConfig_eq (e : Engine) :
    ∃ (d : Tracking) (members learners : Dict NodeId Member),
      e.refreshConfig = e.adopting d e.node.latestConfig.1 members learners ∧ e.Forgets d ∧
        e.Current members := by
  have hstay : e.Forgets ⟨e.node.nextIndex, e.node.matchIndex, e.lastContact, e.replicators,
      e.wakeups⟩ := fun _ => Or.inl rfl
  unfold Engine.refreshConfig
  dsimp only
  split
  · rename_i hs
    exact ⟨_, e.members, e.learners, rfl, hstay, hs⟩
  · split
    · obtain ⟨d, hd, hle⟩ := startReplicators_eq
        { e with
          configIndex := e.node.latestConfig.1
          members := membersOf (e.node.latestConfig.2.getD [])
          learners := e.learners.filter fun p =>
            ¬ (membersOf (e.node.latestConfig.2.getD [])).contains p.1 }
      exact ⟨d, _, _, hd, hle, Dict.sameItems_self _⟩
    · exact ⟨_, _, _, rfl, hstay, Dict.sameItems_self _⟩

theorem appended_eq (e : Engine) (es : List LogEntry) :
    ∃ (d : Tracking) (index : Nat) (members learners : Dict NodeId Member),
      e.appended es =
        ((e.extendLog es).stored .append (·.append es)).adopting d index members learners ∧
      e.Forgets d := by
  unfold Engine.appended
  dsimp only
  split
  · obtain ⟨d, ms, ls, h, hd, -⟩ := refreshConfig_eq ((e.extendLog es).stored .append (·.append es))
    exact ⟨d, _, ms, ls, h, hd⟩
  · exact ⟨⟨e.node.nextIndex, e.node.matchIndex, e.lastContact, e.replicators, e.wakeups⟩,
      e.configIndex, e.members, e.learners, rfl, fun _ => Or.inl rfl⟩

theorem truncated_eq (e : Engine) (k : Nat) :
    ∃ (d : Tracking) (members learners : Dict NodeId Member),
      e.truncated k = ((e.cutLog k).stored .truncateFrom (·.truncateFrom k)).adopting d
        (e.cutLog k).node.latestConfig.1 members learners ∧ (e.cutLog k).Current members := by
  obtain ⟨d, ms, ls, h, -, hc⟩ :=
    refreshConfig_eq ((e.cutLog k).stored .truncateFrom (·.truncateFrom k))
  exact ⟨d, ms, ls, h, hc⟩

theorem uprooted_eq (e : Engine) (req : InstallSnapshotRequest) :
    ∃ (storage : MemoryRaftStorage) (faults : StorageCall → List Bool),
      e.uprooted req = { e.adoptSnapshot req with storage := storage, faults := faults } := by
  unfold Engine.uprooted
  split
  · exact ⟨_, _, rfl⟩
  · exact ⟨_, _, rfl⟩

theorem installed_eq (e : Engine) (req : InstallSnapshotRequest) :
    ∃ (d : Tracking) (members learners : Dict NodeId Member),
      e.installed req = ((e.uprooted req).stored .saveSnapshot fun s =>
        s.saveSnapshot (e.uprooted req).node.snapshotIndex (e.uprooted req).node.snapshotTerm
          (e.uprooted req).node.lastApplied (some (req.config.getD []))).adopting d
        (e.uprooted req).node.latestConfig.1 members learners ∧ e.Forgets d ∧
      (e.uprooted req).Current members := by
  obtain ⟨d, ms, ls, h, hd, hc⟩ := refreshConfig_eq ((e.uprooted req).stored .saveSnapshot fun s =>
    s.saveSnapshot (e.uprooted req).node.snapshotIndex (e.uprooted req).node.snapshotTerm
      (e.uprooted req).node.lastApplied (some (req.config.getD [])))
  refine ⟨d, ms, ls, h, fun p => ?_, hc⟩
  obtain ⟨s, fs, hu⟩ := uprooted_eq e req
  have := hd p
  rw [hu] at this
  exact this

theorem stepDown_eq (e : Engine) :
    ∃ (leaderId : Option NodeId) (learners : Dict NodeId Member) (transferring : Bool),
      e.stepDown =
        { e with
          node := { e.node with leaderId := leaderId, state := .follower }
          learners := learners
          transferring := transferring
          timerGeneration := e.timerGeneration + 1 } := by
  unfold Engine.stepDown
  split
  · exact ⟨_, _, _, rfl⟩
  · exact ⟨_, _, _, rfl⟩

theorem advanceCommitIndex_eq (e : Engine) :
    ∃ k, e.advanceCommitIndex = { e with node := { e.node with commitIndex := k } } ∧
      (k = e.node.commitIndex ∨
        e.node.state = .leader ∧ e.scanCommit e.node.lastLogIndex = some k) := by
  unfold Engine.advanceCommitIndex
  split
  · exact ⟨e.node.commitIndex, rfl, Or.inl rfl⟩
  · rename_i hl
    split
    · rename_i k hk
      exact ⟨k, rfl, Or.inr ⟨Decidable.not_not.mp hl, hk⟩⟩
    · exact ⟨e.node.commitIndex, rfl, Or.inl rfl⟩

theorem followCommit_eq (e : Engine) (c m : Nat) :
    ∃ k, e.followCommit c m = { e with node := { e.node with commitIndex := k } } ∧
      e.node.commitIndex ≤ k ∧ (k = e.node.commitIndex ∨ k ≤ c ∧ k ≤ m) := by
  unfold Engine.followCommit
  split
  · refine ⟨max e.node.commitIndex (min c m), rfl, Nat.le_max_left _ _, ?_⟩
    rcases Nat.le_total (min c m) e.node.commitIndex with h | h
    · exact Or.inl (Nat.max_eq_left h)
    · rw [Nat.max_eq_right h]
      exact Or.inr ⟨Nat.min_le_left _ _, Nat.min_le_right _ _⟩
  · exact ⟨e.node.commitIndex, rfl, Nat.le_refl _, Or.inl rfl⟩

/-- The entry is appended, `k` is committed, and someone waits. -/
def Engine.joined (e : Engine) (entry : LogEntry) (timeout k : Nat) : Engine :=
  { e with
    node := { e.node with commitIndex := k }
    waiters := e.waiters.set entry.index none
    nextCall := e.nextCall + 1
    proposals := e.proposals ++
      [{ id := e.nextCall, entry := entry, deadline := e.clock + timeout }] }

theorem proposed_eq (e : Engine) (entry : LogEntry) (timeout : Nat) :
    ∃ (d : Tracking) (index : Nat) (members learners : Dict NodeId Member) (k : Nat),
      e.proposed entry timeout = (((e.extendLog [entry]).stored .append
        (·.append [entry])).adopting d index members learners).joined entry timeout k ∧
      e.Forgets d ∧ (k = e.node.commitIndex ∨
        e.node.state = .leader ∧
          ((e.appended [entry]).addWaiter entry.index).scanCommit
            (e.node.lastLogIndex + 1) = some k) := by
  obtain ⟨d, index, ms, ls, h, hd⟩ := appended_eq e [entry]
  obtain ⟨k, h', hk⟩ := advanceCommitIndex_eq ((e.appended [entry]).addWaiter entry.index)
  refine ⟨d, index, ms, ls, k, ?_, hd, ?_⟩
  · unfold Engine.proposed
    rw [h', h]
    rfl
  · have hlen : ((e.appended [entry]).addWaiter entry.index).node.lastLogIndex
        = e.node.lastLogIndex + 1 := by
      rw [h]
      exact (congrArg _ List.length_append).trans (Nat.add_assoc _ _ _).symm
    have hcommit : ((e.appended [entry]).addWaiter entry.index).node.commitIndex
        = e.node.commitIndex := by
      rw [h]
      rfl
    have hstate : ((e.appended [entry]).addWaiter entry.index).node.state = e.node.state := by
      rw [h]
      rfl
    rw [hlen, hcommit, hstate] at hk
    exact hk

/-- What a thread, a packet or a call leaves in the engine, besides the node
and its membership. -/
structure Desk where
  settings : Settings
  epoch : Nat
  termStartIndex : Nat
  ledTerm : Nat
  snapshotRx : Option SnapshotRx
  running : Bool
  waiters : Dict Nat (Option (Nat × Result))
  votes : List NodeId
  applyLock : ApplyLock
  installs : List Install
  outgoing : List Outgoing
  transfers : List Transfer
  proposals : List Proposal
  configChange : Option ConfigChange
  changes : List ConfigChange
  outbox : List Packet

def Engine.desk (e : Engine) : Desk where
  settings := e.settings
  epoch := e.epoch
  termStartIndex := e.termStartIndex
  ledTerm := e.ledTerm
  snapshotRx := e.snapshotRx
  running := e.running
  waiters := e.waiters
  votes := e.votes
  applyLock := e.applyLock
  installs := e.installs
  outgoing := e.outgoing
  transfers := e.transfers
  proposals := e.proposals
  configChange := e.configChange
  changes := e.changes
  outbox := e.outbox

section Desk

variable (e : Engine)

@[simp] theorem desk_startReplicator (p : NodeId) : (e.startReplicator p).desk = e.desk := by
  obtain ⟨d, h, -⟩ := startReplicator_eq e p
  rw [h]
  rfl

@[simp] theorem desk_appended (es : List LogEntry) : (e.appended es).desk = e.desk := by
  obtain ⟨d, k, ms, ls, h, -⟩ := appended_eq e es
  rw [h]
  rfl

@[simp] theorem desk_truncated (k : Nat) : (e.truncated k).desk = e.desk := by
  obtain ⟨d, ms, ls, h, -⟩ := truncated_eq e k
  rw [h]
  rfl

@[simp] theorem desk_uprooted (req : InstallSnapshotRequest) : (e.uprooted req).desk = e.desk := by
  obtain ⟨s, fs, h⟩ := uprooted_eq e req
  rw [h]
  rfl

@[simp] theorem desk_installed (req : InstallSnapshotRequest) :
    (e.installed req).desk = e.desk := by
  obtain ⟨d, ms, ls, h, -⟩ := installed_eq e req
  rw [h]
  exact desk_uprooted e req

@[simp] theorem desk_stepDown : e.stepDown.desk = e.desk := by
  obtain ⟨l, ls, b, h⟩ := stepDown_eq e
  rw [h]
  rfl

@[simp] theorem desk_advanceCommitIndex : e.advanceCommitIndex.desk = e.desk := by
  obtain ⟨k, h, -⟩ := advanceCommitIndex_eq e
  rw [h]
  rfl

@[simp] theorem desk_followCommit (c m : Nat) : (e.followCommit c m).desk = e.desk := by
  obtain ⟨k, h, -⟩ := followCommit_eq e c m
  rw [h]
  rfl

end Desk

/-! ## What an event brings -/

/-- The event is the arrival of this call. -/
def NodeEvent.Calls (ev : NodeEvent) (env : Envelope) : Prop := ev = .receive (.call env)

/-- An AppendEntries request arrives. -/
def NodeEvent.Brings (ev : NodeEvent) (req : AppendEntriesRequest) : Prop :=
  ∃ env peer seq, ev.Calls env ∧ env.call = .appendEntries peer req seq

/-- The reply to a call of this process arrives. -/
def NodeEvent.Answers (ev : NodeEvent) (e : Engine) (call : Call) (response : Response) : Prop :=
  ∃ env, ev = .receive (.reply env response) ∧ env.call = call ∧ env.epoch = e.epoch

/-- The node, a follower in the request's term, holds the entry before the
entries of the request. -/
structure Accepts (ev : NodeEvent) (n : RaftNode) (req : AppendEntriesRequest) : Prop where
  brings : ev.Brings req
  term : n.currentTerm = req.term
  follower : n.state = .follower
  prev_le : (n.skipCovered req).2.1 ≤ n.lastLogIndex
  prev : n.termAt (n.skipCovered req).2.1 = (n.skipCovered req).2.2

/-- The request's entries before `es` are in the log of `n`; the first of
`es` is not, and `m` is the log it is about to be appended to. -/
structure Lacks (n m : RaftNode) (req : AppendEntriesRequest) (es : List LogEntry) : Prop where
  split : ∃ pre, (n.skipCovered req).1 = pre ++ es ∧ ∀ x ∈ pre, n.termAt x.index = some x.term
  next : ∃ y rest, es = y :: rest ∧
    (n.termAt y.index = none ∧ m = n ∨
      n.termAt y.index ≠ none ∧ n.termAt y.index ≠ some y.term ∧ m = n.truncateFrom y.index)

/-- The log holds the entries of the request. -/
def Merged (n m : RaftNode) (req : AppendEntriesRequest) : Prop :=
  (m = n ∧ ∀ x ∈ (n.skipCovered req).1, n.termAt x.index = some x.term) ∨
    ∃ k es, Lacks n k req es ∧ m = { k with log := k.log ++ es }

/-- A call that carries no part of a log. -/
def Call.Light : Call → Prop
  | .appendEntries _ _ _ | .installSnapshot _ _ => False
  | _ => True

/-- A leader of this term whose replicator for `peer` is at work. -/
structure Replicating (e : Engine) (peer : NodeId) (m : Member) (term : Nat) : Prop where
  running : e.running = true
  leader : e.node.state = .leader
  term : e.node.currentTerm = term
  target : e.targets.get? peer = some m

/-- What a leader appends on its own: its no-op, a client's write or a new
membership. -/
inductive OwnEntry (ev : NodeEvent) (e : Engine) : LogEntry → Prop
  | write {text username requestId : String} {timeout : Nat}
      (h : ev = .act (.propose text username requestId timeout)) :
      OwnEntry ev e (e.newEntry (.write text) username requestId)
  | config {c : ConfigChange} {members : List Member} (h : ev = .act .wakeChange)
      (hc : e.configChange = some c) (hp : c.phase = .propose members) :
      OwnEntry ev e (e.newEntry (configCommand members) "" "")

/-! ## Moves -/

/-- One move of a section, which has taken office before if `b` holds: a node
that has does not change its role again in the same section. -/
inductive Move (ev : NodeEvent) (b : Bool) (e : Engine) : Engine → Prop
  | idle {e' : Engine} (h : e'.gist = e.gist) (hn : e.nextCall ≤ e'.nextCall) : Move ev b e e'
  -- terms and votes
  | adoptTerm {t : Nat} (hb : b = false) (h : e.node.currentTerm < t)
      (hr : e.raises .saveTermAndVote = false) :
      Move ev b e (e.enterTerm t).saveVote.stepDown
  | adoptTermFails {t : Nat} (hb : b = false) (h : e.node.currentTerm < t)
      (hr : e.raises .saveTermAndVote = true) :
      Move ev b e ((e.enterTerm t).useFault .saveTermAndVote)
  | stepDown (hb : b = false) : Move ev b e e.stepDown
  | stand (hb : b = false) (hr : e.raises .saveTermAndVote = false) :
      Move ev b e e.standForElection.saveVote.openBallot
  | standFails (hb : b = false) (hr : e.raises .saveTermAndVote = true) :
      Move ev b e (e.standForElection.useFault .saveTermAndVote)
  | vote {d : NodeId} (hv : e.node.votedFor = none ∨ e.node.votedFor = some d)
      (hr : e.raises .saveTermAndVote = false) : Move ev b e (e.castVote d).saveVote
  | voteFails {d : NodeId} (hv : e.node.votedFor = none ∨ e.node.votedFor = some d)
      (hr : e.raises .saveTermAndVote = true) :
      Move ev b e ((e.castVote d).useFault .saveTermAndVote)
  | addVote {peer : NodeId} {request : RequestVoteRequest} {response : RequestVoteResponse}
      (ha : ev.Answers e (.requestVote peer request) (.requestVote response))
      (hg : response.voteGranted = true) (hc : e.node.state = .candidate)
      (ht : e.node.currentTerm = request.term) : Move ev b e (e.addVote peer)
  -- the log
  | noop (hl : e.node.state = .leader) (hs : e.termStartIndex = e.node.lastLogIndex + 1)
      (hr : e.raises .append = false) :
      Move ev b e (e.appended [e.newEntry .noop "" ""])
  | noopFails (hl : e.node.state = .leader) (hs : e.termStartIndex = e.node.lastLogIndex + 1)
      (hr : e.raises .append = true) :
      Move ev b e ((e.extendLog [e.newEntry .noop "" ""]).useFault .append)
  | propose {entry : LogEntry} (timeout : Nat) (ho : OwnEntry ev e entry)
      (hrun : e.running = true) (hl : e.node.state = .leader) (ht : e.transferring = false)
      (hr : e.raises .append = false) : Move ev b e (e.proposed entry timeout)
  | proposeFails {entry : LogEntry} (ho : OwnEntry ev e entry)
      (hrun : e.running = true) (hl : e.node.state = .leader) (ht : e.transferring = false)
      (hr : e.raises .append = true) : Move ev b e ((e.extendLog [entry]).useFault .append)
  | receive {n : RaftNode} {req : AppendEntriesRequest} {es : List LogEntry}
      (ha : Accepts ev n req) (hl : Lacks n e.node req es) (hr : e.raises .append = false) :
      Move ev b e (e.appended es)
  | receiveFails {n : RaftNode} {req : AppendEntriesRequest} {es : List LogEntry}
      (ha : Accepts ev n req) (hl : Lacks n e.node req es) (hr : e.raises .append = true) :
      Move ev b e ((e.extendLog es).useFault .append)
  | truncate {req : AppendEntriesRequest} {pre rest : List LogEntry} {y : LogEntry}
      (ha : Accepts ev e.node req) (hs : (e.node.skipCovered req).1 = pre ++ y :: rest)
      (hp : ∀ x ∈ pre, e.node.termAt x.index = some x.term) (hy : e.node.termAt y.index ≠ none)
      (ht : e.node.termAt y.index ≠ some y.term) (hr : e.raises .truncateFrom = false) :
      Move ev b e (e.truncated y.index)
  | truncateFails {req : AppendEntriesRequest} {pre rest : List LogEntry} {y : LogEntry}
      (ha : Accepts ev e.node req) (hs : (e.node.skipCovered req).1 = pre ++ y :: rest)
      (hp : ∀ x ∈ pre, e.node.termAt x.index = some x.term) (hy : e.node.termAt y.index ≠ none)
      (ht : e.node.termAt y.index ≠ some y.term) (hr : e.raises .truncateFrom = true) :
      Move ev b e ((e.cutLog y.index).useFault .truncateFrom)
  | advanceCommit : Move ev b e e.advanceCommitIndex
  | followCommit {n : RaftNode} {req : AppendEntriesRequest} (ha : Accepts ev n req)
      (hm : Merged n e.node req) :
      Move ev b e (e.followCommit req.leaderCommit
        ((n.skipCovered req).2.1 + (n.skipCovered req).1.length))
  -- the followers, as the leader sees them
  | noteMatch {peer : NodeId} {request : AppendEntriesRequest} {seq : Nat}
      {response : AppendEntriesResponse}
      (ha : ev.Answers e (.appendEntries peer request seq) (.appendEntries response))
      (hl : e.node.state = .leader) (ht : e.node.currentTerm = request.term)
      (hs : response.success = true) :
      Move ev b e (e.noteMatch peer
        (max (request.prevLogIndex + request.entries.length) response.matchIndex))
  | finishTransfer {k : Nat} {transfer : Transfer} (ha : ev = .act (.finishTransfer k))
      (hk : e.transfers[k]? = some transfer) (hl : e.node.state = .leader)
      (ht : e.node.currentTerm = transfer.term) :
      Move ev b e ((e.dropTransfer k).noteMatch transfer.peer transfer.index)
  | dropTransfer {k : Nat} : Move ev b e (e.dropTransfer k)
  | startReplicator {peer : NodeId} : Move ev b e (e.startReplicator peer)
  -- packets
  | sendCall {address : String} {call : Call} (hc : call.Light) : Move ev b e (e.sendCall address call)
  | pushEntries {peer : NodeId} {m : Member} {term nextIdx : Nat}
      (hp : Replicating e peer m term) (hn : e.node.nextIndex.get? peer = some nextIdx)
      (hs : e.node.snapshotIndex < nextIdx) :
      Move ev b e (e.push (.entries peer m.raftAddress (e.entriesRequest term nextIdx)))
  | pushSnapshotDue {peer : NodeId} {m : Member} {term nextIdx : Nat}
      (hp : Replicating e peer m term) (hn : e.node.nextIndex.get? peer = some nextIdx)
      (hs : nextIdx ≤ e.node.snapshotIndex) :
      Move ev b e (e.push (.snapshotDue peer m.raftAddress term))
  | sendEntries {k : Nat} {peer : NodeId} {address : String} {request : AppendEntriesRequest}
      (hk : e.outgoing[k]? = some (.entries peer address request)) :
      Move ev b e ((e.pull k).nextSendSeq.sendCall address
        (.appendEntries peer request (e.sendSeq + 1)))
  | sendSnapshot {k : Nat} {transfer : Transfer} (hk : e.outgoing[k]? = some (.snapshot transfer)) :
      Move ev b e ((e.pull k).nextSendSeq.sendChunk { transfer with seq := e.sendSeq + 1 })
  | writeSnapshot {k : Nat} {peer : NodeId} {address : String} {term : Nat} {file : List UInt8}
      (ha : ev = .act (.writeSnapshot k file)) (hf : e.applyLock = .free)
      (hk : e.outgoing[k]? = some (.snapshotDue peer address term))
      (hl : e.node.state = .leader) (ht : e.node.currentTerm = term) :
      Move ev b e ((e.pull k).push (.snapshot ((e.pull k).newTransfer peer address term file)))
  | skipSnapshot {k : Nat} {peer : NodeId} {address : String} {term : Nat}
      (hk : e.outgoing[k]? = some (.snapshotDue peer address term)) : Move ev b e (e.pull k)
  | nextChunk {request : InstallSnapshotRequest} {transfer : Transfer}
      {response : InstallSnapshotResponse}
      (ha : ev.Answers e (.installSnapshot request transfer) (.installSnapshot response))
      (hl : e.node.state = .leader) (ht : e.node.currentTerm = transfer.term)
      (hs : response.success = true) (hd : request.done = false) :
      Move ev b e (e.sendChunk { transfer with offset := transfer.offset + request.data.length })
  | queueTransfer {request : InstallSnapshotRequest} {transfer : Transfer}
      {response : InstallSnapshotResponse}
      (ha : ev.Answers e (.installSnapshot request transfer) (.installSnapshot response))
      (hl : e.node.state = .leader) (ht : e.node.currentTerm = transfer.term)
      (hs : response.success = true) (hd : request.done = true) :
      Move ev b e (e.queueTransfer { transfer with offset := transfer.offset + request.data.length })
  | reply {env : Envelope} {response : Response} (ha : ev.Calls env) :
      Move ev b e (e.send (.reply env response))
  | answerRead {env : Envelope} {response : ReadIndexResponse} :
      Move ev b e (e.send (.reply env (.readIndex response)))
  -- snapshots received
  | keepChunks {env : Envelope} {req : InstallSnapshotRequest} {transfer : Transfer}
      {rx : SnapshotRx} (ha : ev.Calls env) (hc : env.call = .installSnapshot req transfer)
      (ht : e.node.currentTerm = req.term) (hf : e.node.state = .follower)
      (hx : e.chunkFile req = some rx) (hd : req.done = false) :
      Move ev b e (e.keepChunks { rx with data := rx.data ++ req.data })
  | queueInstall {env : Envelope} {req : InstallSnapshotRequest} {transfer : Transfer}
      {rx : SnapshotRx} (ha : ev.Calls env) (hc : env.call = .installSnapshot req transfer)
      (ht : e.node.currentTerm = req.term) (hf : e.node.state = .follower)
      (hx : e.chunkFile req = some rx) (hd : req.done = true) :
      Move ev b e (e.queueInstall ⟨env, req, rx.data ++ req.data⟩)
  | coverInstall {k : Nat} {install : Install} (hf : e.applyLock = .free)
      (hk : e.installs[k]? = some install)
      (hle : install.request.lastIncludedIndex ≤ e.node.lastApplied) :
      Move ev b e ((e.dropInstall k).replyInstall install)
  | startInstall {k : Nat} {install : Install} (hf : e.applyLock = .free)
      (hk : e.installs[k]? = some install)
      (hlt : e.node.lastApplied < install.request.lastIncludedIndex) :
      Move ev b e ((e.dropInstall k).setLock (.installing install))
  | install {install : Install} (ha : ev = .act (.finishInstall true))
      (hi : e.applyLock = .installing install)
      (hr : e.Mismatch install.request → e.raises .truncateFrom = false)
      (hs : e.raises .saveSnapshot = false) :
      Move ev b e (((e.setLock .free).installed install.request).replyInstall install)
  | installFails {install : Install} {e' : Engine} (ha : ev = .act (.finishInstall true))
      (hi : e.applyLock = .installing install)
      (h : e' = (e.setLock .free).useFault .truncateFrom ∧ e.raises .truncateFrom = true ∧
          e.Mismatch install.request ∨
        e' = ((e.setLock .free).uprooted install.request).useFault .saveSnapshot ∧
          e.raises .saveSnapshot = true) : Move ev b e e'
  | restoreFails {install : Install} (ha : ev = .act (.finishInstall false))
      (hi : e.applyLock = .installing install) : Move ev b e (e.setLock .free)
  -- applying
  | startApply {entry : LogEntry} (hf : e.applyLock = .free) (hrun : e.running = true)
      (he : e.node.entryAt (e.node.lastApplied + 1) = some entry)
      (hc : e.node.lastApplied + 1 ≤ e.node.commitIndex) :
      Move ev b e (e.setLock (.applying (e.node.lastApplied + 1) entry))
  | noteApplied {index : Nat} {entry : LogEntry} {result : Result}
      (ha : ev = .act (.finishApply result)) (hl : e.applyLock = .applying index entry) :
      Move ev b e (e.noteApplied index entry.term (entry.command.applied result))
  | stopApply {index : Nat} {entry : LogEntry} (hl : e.applyLock = .applying index entry)
      (hrun : e.running = false) : Move ev b e (e.setLock .free)
  | compact {threshold : Nat} (ht : threshold ≠ 0)
      (hd : threshold ≤ e.node.lastApplied - e.node.snapshotIndex)
      (hr : e.raises .saveSnapshot = false) : Move ev b e e.compacted
  | compactFails {threshold : Nat} (ht : threshold ≠ 0)
      (hd : threshold ≤ e.node.lastApplied - e.node.snapshotIndex)
      (hr : e.raises .saveSnapshot = true) : Move ev b e (e.folded.useFault .saveSnapshot)
  -- client calls
  | endProposal {p : Proposal} (hp : p ∈ e.proposals) (hw : p.phase = .waiting) :
      Move ev b e (e.endProposal p (e.proposalOutcome p))
  | change {changing : Option ConfigChange} {changes : List ConfigChange}
      {learners : Dict NodeId Member}
      (ha : ev = .act .wakeChange ∨ ∃ change deadline, ev = .act (.changeMembership change deadline)) :
      Move ev b e { e with configChange := changing, changes := changes, learners := learners }
  | power {running down : Bool} {rx : Option SnapshotRx} (hx : rx = none ∨ rx = e.snapshotRx) :
      Move ev b e { e with running := running, down := down, snapshotRx := rx }
  | handOver {transferring : Bool} : Move ev b e { e with transferring := transferring }

/-- One move after another. -/
def Moves (ev : NodeEvent) (b : Bool) : Engine → Engine → Prop :=
  Relation.ReflTransGen (Move ev b)

/-- What a section does: moves, among which the node may take office once. -/
def Section (ev : NodeEvent) (e₀ e : Engine) : Prop :=
  Moves ev false e₀ e ∨
    ∃ u, Moves ev false e₀ u ∧ u.node.state = .candidate ∧ u.majority ≤ u.countVotes u.votes ∧
      Moves ev true u.takeOffice e

/-! ## Role changes -/

section Sections

variable {ev : NodeEvent} {b : Bool} {e₀ e e' : Engine}

namespace Moves

theorem refl : Moves ev b e e := Relation.ReflTransGen.refl

theorem move (h : Moves ev b e₀ e) (hm : Move ev b e e') : Moves ev b e₀ e' :=
  Relation.ReflTransGen.tail h hm

/-- What every move keeps. -/
theorem keeps {P : Engine → Prop} (h : Moves ev b e₀ e) (h₀ : P e₀)
    (hm : ∀ x y, Move ev b x y → P x → P y) : P e := by
  induction h with
  | refl => exact h₀
  | tail _ hxy ih => exact hm _ _ hxy ih

/-- Nothing that counts moves. -/
theorem idle (h : Moves ev b e₀ e) (hg : e'.gist = e.gist) (hn : e.nextCall ≤ e'.nextCall) :
    Moves ev b e₀ e' := h.move (.idle hg hn)

end Moves

theorem Section.move (h : Section ev e₀ e) (hm : ∀ b, Move ev b e e') : Section ev e₀ e' :=
  h.imp (fun h => h.move (hm false)) fun ⟨u, h₁, h₂, h₃, h₄⟩ => ⟨u, h₁, h₂, h₃, h₄.move (hm true)⟩

/-- What every move keeps, and taking office as well. -/
theorem Section.keeps {P : Engine → Prop} (h : Section ev e₀ e) (h₀ : P e₀)
    (hm : ∀ b x y, Move ev b x y → P x → P y)
    (ho : ∀ x, x.node.state = .candidate → x.majority ≤ x.countVotes x.votes → P x →
      P x.takeOffice) : P e := by
  rcases h with h | ⟨u, h₁, hc, hv, h₂⟩
  · exact h.keeps h₀ (hm false)
  · exact h₂.keeps (ho u hc hv (h₁.keeps h₀ (hm false))) (hm true)

theorem refreshConfig_node (hf : e.node.state ≠ .leader) : e.refreshConfig.node = e.node := by
  simp only [Engine.refreshConfig]
  split
  · rfl
  · rfl

theorem appended_node (hf : e.node.state ≠ .leader) (es : List LogEntry) :
    (e.appended es).node = { e.node with log := e.node.log ++ es } := by
  unfold Engine.appended
  dsimp only
  split
  · exact refreshConfig_node (e := (e.extendLog es).stored .append (·.append es)) hf
  · rfl

theorem truncated_node (hf : e.node.state ≠ .leader) (k : Nat) :
    (e.truncated k).node = e.node.truncateFrom k :=
  refreshConfig_node (e := (e.cutLog k).stored .truncateFrom (·.truncateFrom k)) hf

theorem Moves.startReplicators (h : Moves ev b e₀ e) : Moves ev b e₀ e.startReplicators := by
  unfold Engine.startReplicators
  generalize e.targets.keys = ps
  induction ps generalizing e with
  | nil => exact h
  | cons p ps ih => exact ih (h.move .startReplicator)

theorem moves_becomeFollower (t : Nat) : Keeps (Moves ev false e₀) (becomeFollower t) := fun e h => by
  simp only [becomeFollower, persistTermAndVote, wp_bind, wp_get, wp_ite, wp_modify,
    wp_storageCall]
  split
  · rename_i ht
    split
    · rename_i hr
      exact h.move (.adoptTermFails rfl ht hr)
    · rename_i hr
      exact h.move (.adoptTerm rfl ht (Bool.eq_false_of_not_eq_true hr))
  · exact h.move (.stepDown rfl)

theorem section_becomeLeader (h : Moves ev false e₀ e) (hc : e.node.state = .candidate)
    (hm : e.majority ≤ e.countVotes e.votes) :
    wp becomeLeader (fun _ => Section ev e₀) (fun _ => Section ev e₀) e := by
  have hoffice : ∀ {e'}, Moves ev true e.takeOffice e' → Section ev e₀ e' :=
    fun h' => Or.inr ⟨e, h, hc, hm, h'⟩
  have h' : Moves ev true e.takeOffice e.takeOffice := .refl
  simp only [becomeLeader, appendLocal, wp_bind, wp_get, wp_modify, wp_storageCall]
  split
  · rename_i hr
    exact hoffice (h'.move (.noopFails rfl rfl hr))
  · rename_i hr
    have h'' := h'.move (.noop rfl rfl (Bool.eq_false_of_not_eq_true hr))
    exact hoffice (Moves.startReplicators ((h''.move .advanceCommit).idle rfl (Nat.le_refl _)))

theorem Moves.callVoters (h : Moves ev b e₀ e) (call : Member → Call) (hc : ∀ m, (call m).Light) :
    Moves ev b e₀ (e.callVoters call) := by
  unfold Engine.callVoters
  generalize e.voters = ps
  induction ps generalizing e with
  | nil => exact h
  | cons m ps ih => exact ih (h.move (.sendCall (hc m)))

theorem Moves.requestVotes (h : Moves ev b e₀ e) (transfer : Bool) :
    Moves ev b e₀ (e.requestVotes transfer) :=
  h.callVoters _ fun _ => trivial

theorem section_becomeCandidate (h : Moves ev false e₀ e) (transfer : Bool) :
    wp (becomeCandidate transfer) (fun _ => Section ev e₀) (fun _ => Section ev e₀) e := by
  simp only [becomeCandidate, persistTermAndVote, wp_bind, wp_get, wp_modify, wp_storageCall,
    wp_ite]
  split
  · rename_i hr
    exact Or.inl (h.move (.standFails rfl hr))
  · rename_i hr
    have h' := h.move (.stand rfl (Bool.eq_false_of_not_eq_true hr))
    split
    · rename_i hm
      exact section_becomeLeader h' rfl hm
    · have h'' : Moves ev false e₀ e.standForElection.saveVote.openBallot.resetElectionTimer :=
        h'.idle rfl (Nat.le_refl _)
      exact Or.inl (h''.requestVotes transfer)

theorem moves_acceptLeader (h : Moves ev false e₀ e) {t : Nat} (ht : e.node.currentTerm ≤ t)
    (l : NodeId) (a : String) :
    wp (acceptLeader t l a)
      (fun _ e' => Moves ev false e₀ e' ∧ e'.node.state = .follower ∧ e'.node.currentTerm = t)
      (fun _ => Moves ev false e₀) e := by
  have hstep : ∀ e : Engine, e.stepDown.node.state = .follower ∧
      e.stepDown.node.currentTerm = e.node.currentTerm := fun e => by
    unfold Engine.stepDown
    split
    · exact ⟨rfl, rfl⟩
    · exact ⟨rfl, rfl⟩
  simp only [acceptLeader, becomeFollower, persistTermAndVote, wp_bind, wp_get, wp_ite, wp_modify,
    wp_storageCall]
  split
  · split
    · rename_i hlt
      split
      · rename_i hr
        exact h.move (.adoptTermFails rfl hlt hr)
      · rename_i hr
        have h' := h.move (.adoptTerm rfl hlt (Bool.eq_false_of_not_eq_true hr))
        exact ⟨h'.idle rfl (Nat.le_refl _), hstep _⟩
    · rename_i hlt
      have h' := h.move (.stepDown rfl)
      exact ⟨h'.idle rfl (Nat.le_refl _), (hstep e).1,
        (hstep e).2.trans (Nat.le_antisymm ht (Nat.le_of_not_lt hlt))⟩
  · rename_i hn
    simp only [not_or, Decidable.not_not] at hn
    exact ⟨h.idle rfl (Nat.le_refl _), hn.2, Nat.le_antisymm ht (Nat.le_of_not_lt hn.1)⟩

/-! ## Messages -/

/-- The entries of a request are all there, or end in those the log lacks. -/
theorem moves_dropConflict {req : AppendEntriesRequest} {e : Engine} (ha : Accepts ev e.node req)
    {pre es : List LogEntry} (hs : (e.node.skipCovered req).1 = pre ++ es)
    (hp : ∀ x ∈ pre, e.node.termAt x.index = some x.term) (h : Moves ev false e₀ e) :
    wp (dropConflict es)
      (fun new e' => Moves ev false e₀ e' ∧ (new = [] ∧ e'.node = e.node ∧
          (∀ x ∈ (e.node.skipCovered req).1, e.node.termAt x.index = some x.term) ∨
        Lacks e.node e'.node req new ∧ e'.node.state = .follower))
      (fun _ => Moves ev false e₀) e := by
  induction es generalizing pre with
  | nil =>
      rw [List.append_nil] at hs
      exact ⟨h, Or.inl ⟨rfl, rfl, fun x hx => hp x (hs ▸ hx)⟩⟩
  | cons y es ih =>
      simp only [dropConflict, truncateLocal, wp_bind, wp_get, wp_ite, wp_pure, wp_modify,
        wp_storageCall]
      split
      · rename_i hy
        exact ⟨h, Or.inr ⟨⟨⟨pre, hs, hp⟩, y, es, rfl, Or.inl ⟨hy, rfl⟩⟩, ha.follower⟩⟩
      · rename_i hy
        split
        · rename_i ht
          split
          · rename_i hr
            exact h.move (.truncateFails ha hs hp hy ht hr)
          · rename_i hr
            have hn := truncated_node (e := e) (by simp [ha.follower]) y.index
            refine ⟨h.move (.truncate ha hs hp hy ht (Bool.eq_false_of_not_eq_true hr)),
              Or.inr ⟨⟨⟨pre, hs, hp⟩, y, es, rfl, Or.inr ⟨hy, ht, hn⟩⟩, ?_⟩⟩
            exact (congrArg RaftNode.state hn).trans ha.follower
        · rename_i ht
          rw [Decidable.not_not] at ht
          have hs' : (e.node.skipCovered req).1 = (pre ++ [y]) ++ es := by
            rw [hs, List.append_assoc, List.singleton_append]
          refine ih hs' fun x hx => ?_
          rcases List.mem_append.mp hx with hx | hx
          · exact hp x hx
          · exact List.mem_singleton.mp hx ▸ ht

theorem moves_mergeEntries {req : AppendEntriesRequest} {e : Engine} (ha : Accepts ev e.node req)
    (h : Moves ev false e₀ e) :
    wp (mergeEntries (e.node.skipCovered req).1)
      (fun _ e' => Moves ev false e₀ e' ∧ Merged e.node e'.node req) (fun _ => Moves ev false e₀) e := by
  simp only [mergeEntries, wp_bind]
  refine wp_mono (moves_dropConflict ha (List.nil_append _).symm (by simp) h) (fun new e' h' => ?_)
    fun _ _ h' => h'
  obtain ⟨h', ⟨rfl, hn, hall⟩ | ⟨hl, hf⟩⟩ := h'
  · rw [wp_ite, if_neg (by simp)]
    exact ⟨h', Or.inl ⟨hn, hall⟩⟩
  · have hne : new ≠ [] := by
      obtain ⟨y, rest, rfl, -⟩ := hl.next
      exact List.cons_ne_nil y rest
    rw [wp_ite, if_pos hne]
    simp only [appendLocal, wp_bind, wp_modify, wp_storageCall]
    split
    · rename_i hr
      exact h'.move (.receiveFails ha hl hr)
    · rename_i hr
      have hm := h'.move (.receive ha hl (Bool.eq_false_of_not_eq_true hr))
      have hn := appended_node (e := e') (by simp [hf]) new
      have hmerged : Merged e.node (e'.appended new).node req := Or.inr ⟨_, new, hl, hn⟩
      unfold Engine.appended at hm hmerged
      dsimp only at hm hmerged
      rw [wp_ite]
      split
      · rename_i hc
        rw [if_pos hc] at hm hmerged
        exact ⟨hm, hmerged⟩
      · rename_i hc
        rw [if_neg hc] at hm hmerged
        exact ⟨hm, hmerged⟩

theorem moves_handleAppendEntries {req : AppendEntriesRequest} (hb : ev.Brings req) :
    Keeps (Moves ev false e₀) (handleAppendEntries req) := fun e h => by
  simp only [handleAppendEntries, wp_bind, wp_get, wp_ite, wp_pure]
  split
  · exact h
  · rename_i hlt
    refine wp_mono (moves_acceptLeader h (Nat.le_of_not_lt hlt) _ _) (fun _ e' h' => ?_)
      fun _ _ h' => h'
    obtain ⟨h', hf, ht⟩ := h'
    simp only [wp_bind, wp_get, wp_ite, wp_pure, appendFrom]
    split
    · exact h'
    · rename_i hle
      split
      · exact h'
      · rename_i hprev
        have ha : Accepts ev e'.node req :=
          ⟨hb, ht, hf, Nat.le_of_not_lt hle, Decidable.not_not.mp hprev⟩
        refine wp_mono (moves_mergeEntries ha h') (fun _ e'' h'' => ?_) fun _ _ h'' => h''
        exact h''.1.move (.followCommit ha h''.2)

theorem moves_handleRequestVote (req : RequestVoteRequest) :
    Keeps (Moves ev false e₀) (handleRequestVote req) := fun e h => by
  have hdecide : Keeps (Moves ev false e₀) (decideVote req) := fun e h => by
    simp only [decideVote, persistTermAndVote, wp_bind, wp_get, wp_ite, wp_pure, wp_modify,
      wp_storageCall]
    split
    · exact h
    · rename_i hn
      simp only [not_or, not_and_or, Decidable.not_not] at hn
      split
      · rename_i hr
        exact h.move (.voteFails hn.2.1 hr)
      · rename_i hr
        exact (h.move (.vote hn.2.1 (Bool.eq_false_of_not_eq_true hr))).idle rfl (Nat.le_refl _)
  simp only [handleRequestVote, wp_bind, wp_get, wp_ite, wp_pure]
  split
  · exact h
  · split
    · exact h
    · split
      · exact wp_mono (moves_becomeFollower _ e h) (fun _ e' h' => hdecide e' h') fun _ _ h' => h'
      · exact hdecide e h

theorem moves_handleInstallSnapshot {env : Envelope} {req : InstallSnapshotRequest}
    {transfer : Transfer} (hb : ev.Calls env) (hc : env.call = .installSnapshot req transfer) :
    Keeps (Moves ev false e₀) (handleInstallSnapshot env req) := fun e h => by
  simp only [handleInstallSnapshot, wp_bind, wp_get, wp_ite, wp_pure]
  split
  · exact h
  · rename_i hlt
    refine wp_mono (moves_acceptLeader h (Nat.le_of_not_lt hlt) _ _) (fun _ e' h' => ?_)
      fun _ _ h' => h'
    obtain ⟨h', hf, ht⟩ := h'
    simp only [wp_bind, wp_get, wp_ite, wp_pure]
    split
    · exact h'
    · split
      · exact h'
      · rename_i rx hx
        simp only [wp_ite, wp_bind, wp_modify, wp_pure]
        split
        · rename_i hd
          exact h'.move (.queueInstall hb hc ht hf hx hd)
        · rename_i hd
          exact h'.move (.keepChunks hb hc ht hf hx (Bool.eq_false_of_not_eq_true hd))

theorem section_handleTimeoutNow (h : Moves ev false e₀ e) (req : TimeoutNowRequest) :
    wp (handleTimeoutNow req) (fun _ => Section ev e₀) (fun _ => Section ev e₀) e := by
  simp only [handleTimeoutNow, wp_bind, wp_get, wp_ite, wp_pure]
  split
  · exact wp_mono (section_becomeCandidate h true) (fun _ _ h' => h') fun _ _ h' => h'
  · exact Or.inl h

theorem section_handleRpc {env : Envelope} (hb : ev.Calls env) (h : Moves ev false e₀ e) :
    wp (handleRpc env) (fun _ => Section ev e₀) (fun _ => Section ev e₀) e := by
  have hreply : ∀ {e' : Engine} (r : Response), Moves ev false e₀ e' →
      Section ev e₀ (e'.send (.reply env r)) := fun r h' => Or.inl (h'.move (.reply hb))
  unfold handleRpc
  split
  · simp only [wp_bind]
    exact wp_mono (moves_handleRequestVote _ e h) (fun _ _ h' => hreply _ h')
      fun _ _ h' => Or.inl h'
  · simp only [wp_bind]
    exact wp_mono (moves_handleRequestVote _ e h) (fun _ _ h' => hreply _ h')
      fun _ _ h' => Or.inl h'
  · rename_i hc
    simp only [wp_bind]
    exact wp_mono (moves_handleAppendEntries ⟨env, _, _, hb, hc⟩ e h)
      (fun _ _ h' => hreply _ h') fun _ _ h' => Or.inl h'
  · rename_i hc
    simp only [wp_bind]
    refine wp_mono (moves_handleInstallSnapshot hb hc e h) (fun a e' h' => ?_)
      fun _ _ h' => Or.inl h'
    split
    · exact hreply _ h'
    · exact Or.inl h'
  · simp only [wp_bind]
    exact wp_mono (section_handleTimeoutNow h _) (fun _ _ h' => h'.move fun _ => .reply hb)
      fun _ _ h' => h'
  · exact Or.inl (h.idle rfl (Nat.le_succ _))

/-! ## Replies -/

theorem section_preVoteReply (h : Moves ev false e₀ e) (peer : NodeId) (round : Nat)
    (response : RequestVoteResponse) :
    wp (preVoteReply peer round response) (fun _ => Section ev e₀) (fun _ => Section ev e₀) e := by
  simp only [preVoteReply, wp_bind, wp_get, wp_ite, wp_pure, wp_modify]
  split
  · exact wp_mono (moves_becomeFollower _ e h) (fun _ _ => Or.inl) fun _ _ => Or.inl
  · split
    · exact Or.inl h
    · have h' : Moves ev false e₀ (e.addGrant peer) := h.idle rfl (Nat.le_refl _)
      split
      · exact section_becomeCandidate h' false
      · exact Or.inl h'

theorem section_requestVoteReply {peer : NodeId} {request : RequestVoteRequest}
    {response : RequestVoteResponse}
    (ha : ev.Answers e (.requestVote peer request) (.requestVote response)) :
    wp (requestVoteReply peer request response) (fun _ => Section ev e) (fun _ => Section ev e)
      e := by
  simp only [requestVoteReply, wp_bind, wp_get, wp_ite, wp_pure, wp_modify]
  split
  · exact wp_mono (moves_becomeFollower _ e .refl) (fun _ _ => Or.inl) fun _ _ => Or.inl
  · split
    · exact Or.inl .refl
    · rename_i hn
      simp only [not_or, Decidable.not_not] at hn
      have h := (Moves.refl : Moves ev false e e).move (.addVote ha hn.2.2 hn.1 hn.2.1)
      split
      · rename_i hm
        exact section_becomeLeader h hn.1 hm
      · exact Or.inl h

theorem moves_appendEntriesReply {peer : NodeId} {request : AppendEntriesRequest} {seq : Nat}
    {response : AppendEntriesResponse}
    (ha : ev.Answers e (.appendEntries peer request seq) (.appendEntries response)) :
    wp (appendEntriesReply peer request seq response) (fun _ => Moves ev false e) (fun _ => Moves ev false e)
      e := by
  simp only [appendEntriesReply, wp_bind, wp_get, wp_ite, wp_pure, wp_modify]
  split
  · exact moves_becomeFollower _ e .refl
  · split
    · exact .refl
    · rename_i hn
      simp only [not_or, Decidable.not_not] at hn
      have h : Moves ev false e (e.noteContact peer seq) := Moves.refl.idle rfl (Nat.le_refl _)
      split
      · rename_i hs
        exact (h.move (.noteMatch ha hn.1 hn.2 hs)).move .advanceCommit
      · exact h.idle rfl (Nat.le_refl _)

theorem moves_installSnapshotReply {request : InstallSnapshotRequest} {transfer : Transfer}
    {response : InstallSnapshotResponse}
    (ha : ev.Answers e (.installSnapshot request transfer) (.installSnapshot response)) :
    wp (installSnapshotReply request transfer response) (fun _ => Moves ev false e)
      (fun _ => Moves ev false e) e := by
  simp only [installSnapshotReply, wp_bind, wp_get, wp_ite, wp_pure, wp_modify]
  split
  · exact moves_becomeFollower _ e .refl
  · split
    · exact .refl
    · rename_i hn
      simp only [not_or, Decidable.not_not] at hn
      have h : Moves ev false e (e.noteContact transfer.peer transfer.seq) :=
        Moves.refl.idle rfl (Nat.le_refl _)
      split
      · rename_i hs
        split
        · rename_i hd
          exact h.move (.queueTransfer ha hn.1 hn.2 hs hd)
        · rename_i hd
          exact h.move (.nextChunk ha hn.1 hn.2 hs (Bool.eq_false_of_not_eq_true hd))
      · exact h

theorem section_handleReply {env : Envelope} {response : Response}
    (hev : ev = .receive (.reply env response)) (hep : env.epoch = e.epoch) :
    wp (handleReply env response) (fun _ => Section ev e) (fun _ => Section ev e) e := by
  have hone : ∀ {α : Type} {x : EngineM α}, wp x (fun _ => Moves ev false e)
      (fun _ => Moves ev false e) e → wp x (fun _ => Section ev e) (fun _ => Section ev e) e :=
    fun h => wp_mono h (fun _ _ => Or.inl) fun _ _ => Or.inl
  unfold handleReply
  split
  · exact section_preVoteReply .refl _ _ _
  · rename_i hc
    exact section_requestVoteReply ⟨env, hev, hc, hep⟩
  · rename_i hc
    exact hone (moves_appendEntriesReply ⟨env, hev, hc, hep⟩)
  · rename_i hc
    exact hone (moves_installSnapshotReply ⟨env, hev, hc, hep⟩)
  · exact Or.inl (Moves.refl.idle rfl (Nat.le_refl _))
  · exact Or.inl (Moves.refl.idle rfl (Nat.le_refl _))
  · exact Or.inl .refl

/-! ## Threads -/

theorem section_startElection (h : Moves ev false e₀ e) (generation : Option Nat) :
    wp (startElection generation) (fun _ => Section ev e₀) (fun _ => Section ev e₀) e := by
  simp only [startElection, wp_bind, wp_get, wp_ite, wp_pure, wp_modify]
  split
  · exact Or.inl h
  · split
    · exact Or.inl (h.idle rfl (Nat.le_refl _))
    · split
      · exact section_becomeCandidate h false
      · have h' : Moves ev false e₀ { e.resetElectionTimer with grants := [e.nodeId] } :=
          h.idle rfl (Nat.le_refl _)
        exact Or.inl (h'.callVoters _ fun _ => trivial)

theorem moves_checkQuorum (term : Nat) : Keeps (Moves ev false e₀) (checkQuorum term) := fun e h => by
  simp only [checkQuorum, wp_bind, wp_get, wp_ite, wp_pure]
  split
  · exact moves_becomeFollower _ e h
  · exact h

theorem section_start (h : Moves ev false e₀ e) :
    wp start (fun _ => Section ev e₀) (fun _ => Section ev e₀) e := by
  simp only [start, wp_bind, wp_get, wp_ite, wp_pure, wp_modify]
  split
  · have h' : Moves ev false e₀ { e with running := true } := h.move (.power (Or.inr rfl))
    split
    · exact section_startElection h' none
    · exact Or.inl (h'.idle rfl (Nat.le_refl _))
  · exact Or.inl h

theorem moves_replicate (peer : NodeId) (term wakeup : Nat) :
    Keeps (Moves ev false e₀) (replicate peer term wakeup) := fun e h => by
  simp only [replicate, wp_bind, wp_get]
  have hdrop : Moves ev false e₀ (e.dropReplicator peer wakeup) := by
    unfold Engine.dropReplicator
    split
    · exact h.idle rfl (Nat.le_refl _)
    · exact h
  split
  · exact hdrop
  · rename_i m hm
    simp only [wp_ite, wp_modify]
    split
    · exact hdrop
    · rename_i hn
      simp only [not_or, Decidable.not_not] at hn
      have hr : Replicating e peer m term := ⟨hn.1, hn.2.1, hn.2.2, hm⟩
      split
      · exact h
      · rename_i nextIdx hi
        simp only [wp_ite, wp_modify]
        split
        · rename_i hs
          exact h.move (.pushEntries hr hi hs)
        · rename_i hs
          exact h.move (.pushSnapshotDue hr hi (Nat.le_of_not_lt hs))

theorem moves_sendNext (k : Nat) : Keeps (Moves ev false e₀) (sendNext k) := fun e h => by
  simp only [sendNext, wp_bind, wp_get]
  split
  · rename_i hk
    exact h.move (.sendEntries hk)
  · rename_i hk
    exact h.move (.sendSnapshot hk)
  · exact h

theorem moves_writeSnapshot {k : Nat} {file : List UInt8} (hev : ev = .act (.writeSnapshot k file)) :
    Keeps (Moves ev false e₀) (writeSnapshot k file) := fun e h => by
  simp only [writeSnapshot, wp_bind, wp_get]
  split
  · rename_i hf hk
    simp only [wp_bind, wp_ite, wp_modify, wp_pure]
    split
    · rename_i hl
      exact h.move (.writeSnapshot hev hf hk hl.1 hl.2)
    · exact h.move (.skipSnapshot hk)
  · exact h

theorem moves_finishTransfer {k : Nat} (hev : ev = .act (.finishTransfer k)) :
    Keeps (Moves ev false e₀) (finishTransfer k) := fun e h => by
  simp only [finishTransfer, wp_bind, wp_get]
  split
  · rename_i hk
    simp only [wp_bind, wp_ite, wp_modify, wp_pure]
    split
    · rename_i hl
      exact (h.move (.finishTransfer hev hk hl.1 hl.2)).move .advanceCommit
    · exact h.move .dropTransfer
  · exact h

theorem moves_beginInstall (k : Nat) : Keeps (Moves ev false e₀) (beginInstall k) := fun e h => by
  simp only [beginInstall, wp_bind, wp_get]
  split
  · rename_i hf hk
    simp only [wp_bind, wp_ite, wp_modify]
    split
    · rename_i hle
      exact h.move (.coverInstall hf hk hle)
    · rename_i hle
      exact h.move (.startInstall hf hk (Nat.lt_of_not_le hle))
  · exact h

/-- One move at most. -/
theorem move_finishInstall {restored : Bool} (hev : ev = .act (.finishInstall restored)) :
    wp (finishInstall restored) (fun _ e' => e' = e ∨ Move ev false e e')
      (fun _ e' => e' = e ∨ Move ev false e e') e := by
  simp only [finishInstall, wp_bind, wp_get]
  split
  · rename_i y hy
    simp only [wp_bind, wp_ite, wp_modify, wp_pure]
    split
    · rename_i hr
      subst hr
      have hdone := fun hr hs => Move.install (b := false) hev hy hr hs
      have hfail : ∀ e', _ → Move ev false e e' := fun e' hf => .installFails hev hy hf
      unfold Engine.installed Engine.uprooted at hdone
      unfold Engine.uprooted at hfail
      simp only [installSnapshot, wp_bind, wp_get, wp_ite, wp_modify, wp_storageCall]
      split
      · rename_i hm
        split
        · rename_i hraise
          exact Or.inr (hfail _ (Or.inl ⟨rfl, hraise, hm⟩))
        · rename_i hraise
          rw [if_pos (show (e.setLock .free).Mismatch y.request from hm)] at hdone hfail
          split
          · rename_i hs
            exact Or.inr (hfail _ (Or.inr ⟨rfl, hs⟩))
          · rename_i hs
            exact Or.inr (hdone (fun _ => Bool.eq_false_of_not_eq_true hraise)
              (Bool.eq_false_of_not_eq_true hs))
      · rename_i hm
        rw [if_neg (show ¬ (e.setLock .free).Mismatch y.request from hm)] at hdone hfail
        split
        · rename_i hs
          exact Or.inr (hfail _ (Or.inr ⟨rfl, hs⟩))
        · rename_i hs
          exact Or.inr (hdone (fun h => absurd h hm) (Bool.eq_false_of_not_eq_true hs))
    · rename_i hr
      rw [Bool.not_eq_true] at hr
      exact Or.inr (.restoreFails (hr ▸ hev) hy)
  · exact Or.inl rfl

theorem moves_finishInstall {restored : Bool} (hev : ev = .act (.finishInstall restored)) :
    Keeps (Moves ev false e₀) (finishInstall restored) := fun e h => by
  have hone : ∀ e', e' = e ∨ Move ev false e e' → Moves ev false e₀ e' := by
    rintro e' (rfl | hm)
    · exact h
    · exact h.move hm
  exact wp_mono (move_finishInstall hev) (fun _ => hone) fun _ => hone

theorem moves_beginApply : Keeps (Moves ev false e₀) beginApply := fun e h => by
  simp only [beginApply, wp_bind, wp_get]
  split
  · rename_i hf he
    simp only [wp_ite, wp_modify, wp_pure]
    split
    · rename_i hc
      exact h.move (.startApply hf hc.1 he hc.2)
    · exact h
  · exact h

theorem moves_maybeSnapshot (threshold : Nat) :
    Keeps (Moves ev false e₀) (maybeSnapshot threshold) := fun e h => by
  simp only [maybeSnapshot, wp_bind, wp_get, wp_ite, wp_pure, wp_modify, wp_storageCall]
  split
  · exact h
  · rename_i hn
    rw [not_or] at hn
    split
    · rename_i hr
      exact h.move (.compactFails hn.1 (Nat.le_of_not_lt hn.2) hr)
    · rename_i hr
      exact h.move (.compact hn.1 (Nat.le_of_not_lt hn.2) (Bool.eq_false_of_not_eq_true hr))

theorem moves_finishApply {result : Result} (hev : ev = .act (.finishApply result)) :
    Keeps (Moves ev false e₀) (finishApply result) := fun e h => by
  simp only [finishApply, wp_bind, wp_get]
  split
  · rename_i hl
    have h' := h.move (.noteApplied hev hl)
    simp only [wp_bind, wp_get, wp_ite, wp_modify]
    split
    · exact wp_mono (moves_becomeFollower _ _ h') (fun _ e' h' => moves_maybeSnapshot _ e' h')
        fun _ _ h' => h'
    · exact moves_maybeSnapshot _ _ h'
  · exact h

theorem moves_stopApply : Keeps (Moves ev false e₀) stopApply := fun e h => by
  simp only [stopApply, wp_bind, wp_get]
  split
  · rename_i hl
    simp only [wp_ite, wp_modify, wp_pure]
    split
    · rename_i hrun
      exact h.move (.stopApply hl (Bool.eq_false_of_not_eq_true hrun))
    · exact h
  · exact h

/-! ## Client calls -/

theorem moves_startProposal (h : Moves ev false e₀ e) {command : Command} {username requestId : String}
    (ho : OwnEntry ev e (e.newEntry command username requestId)) (timeout : Nat) :
    wp (startProposal command username requestId timeout) (fun _ => Moves ev false e₀)
      (fun _ => Moves ev false e₀) e := by
  simp only [startProposal, propose, appendLocal, wp_bind, wp_get, wp_ite, wp_throw, wp_modify,
    wp_storageCall, wp_pure]
  split
  · exact h
  · rename_i hrun
    rw [not_or, Decidable.not_not, Bool.not_eq_true] at hrun
    split
    · exact h
    · rename_i hl
      rw [Decidable.not_not] at hl
      split
      · rename_i hr
        exact h.move (.proposeFails ho hrun.1 hl hrun.2 hr)
      · rename_i hr
        have hm := h.move (.propose timeout ho hrun.1 hl hrun.2
          (Bool.eq_false_of_not_eq_true hr))
        unfold Engine.proposed Engine.appended at hm
        dsimp only at hm
        split
        · rename_i hc
          rw [if_pos hc] at hm
          exact hm
        · rename_i hc
          rw [if_neg hc] at hm
          exact hm

theorem moves_wakeProposal (id : Nat) : Keeps (Moves ev false e₀) (wakeProposal id) := fun e h => by
  simp only [wakeProposal, wp_bind, wp_get]
  split
  · rename_i p hp
    split
    · exact h
    · rename_i phase hw hne
      exact h.move (.endProposal (List.mem_of_find?_eq_some hp) hw)
    · exact h
  · exact h

/-- The event is about a membership call. -/
def NodeEvent.Changing (ev : NodeEvent) : Prop :=
  ev = .act .wakeChange ∨ ∃ change deadline, ev = .act (.changeMembership change deadline)

namespace Moves

variable (hch : ev.Changing) (c : ConfigChange)
include hch

theorem changePhase (h : Moves ev false e₀ e) (phase : ConfigPhase) :
    Moves ev false e₀ (e.changePhase c phase) := h.move (.change hch)

theorem endChange (h : Moves ev false e₀ e) (error? : Option EngineError) :
    Moves ev false e₀ (e.endChange c error?) := h.move (.change hch)

theorem addLearner (h : Moves ev false e₀ e) (m : Member) : Moves ev false e₀ (e.addLearner m) :=
  h.move (.change hch)

theorem dropLearner (h : Moves ev false e₀ e) (nodeId : NodeId) : Moves ev false e₀ (e.dropLearner nodeId) :=
  h.move (.change hch)

theorem catchUpLearner (h : Moves ev false e₀ e) (m : Member) (term : Nat) :
    Moves ev false e₀ (e.catchUpLearner c m term) := by
  unfold Engine.catchUpLearner
  split
  · split
    · exact (h.dropLearner hch _).endChange hch c _
    · exact h.changePhase hch c _
  · exact h.changePhase hch c _

theorem waitConfigIdle (h : Moves ev false e₀ e) (term : Nat) :
    Moves ev false e₀ (e.waitConfigIdle c term) := by
  unfold Engine.waitConfigIdle Engine.changeIdle
  split
  · split
    · exact h.endChange hch c _
    · exact h.changePhase hch c _
  · split
    · exact ((h.addLearner hch _).move .startReplicator).catchUpLearner hch c _ _
    · exact h.changePhase hch c _

theorem forgetLearner (h : Moves ev false e₀ e) (change : Change) :
    Moves ev false e₀ (e.forgetLearner change) := by
  unfold Engine.forgetLearner
  split
  · split
    · exact h
    · exact h.dropLearner hch _
  · exact h

end Moves

theorem moves_changeMembership {change : Change} {deadline : Nat} (hch : ev.Changing) :
    Keeps (Moves ev false e₀) (changeMembership change deadline) := fun e h => by
  simp only [changeMembership, wp_modify]
  split
  · exact h
  · split
    · exact h.endChange hch _ _
    · split
      · exact h.endChange hch _ _
      · exact h.waitConfigIdle hch _ _

theorem moves_wakeChange (hev : ev = .act .wakeChange) : Keeps (Moves ev false e₀) wakeChange :=
  fun e h => by
    have hch : ev.Changing := Or.inl hev
    simp only [wakeChange, wp_bind, wp_get]
    split
    · exact h
    · rename_i c hc
      split
      · exact h.waitConfigIdle hch c _
      · split
        · exact h.catchUpLearner hch c _ _
        · exact h
      · rename_i members hp
        simp only [proposeConfig, wp_bind, wp_get, wp_tryCatch]
        refine wp_mono (moves_startProposal h (.config hev hc hp) _) (fun _ _ h' => ?_)
          fun _ _ h' => ?_
        · exact h'.changePhase hch c _
        · exact h'.changePhase hch c _
      · split
        · split
          · exact h
          · exact h.changePhase hch c _
          · exact h.changePhase hch c _
        · exact h
      · exact (h.forgetLearner hch _).endChange hch c _
      · exact h
      · exact h

theorem moves_transferLeadership (timeout : Nat) :
    Keeps (Moves ev false e₀) (transferLeadership timeout) := fun e h => by
  simp only [transferLeadership, wp_bind, wp_get]
  split
  · simp only [wp_ite, wp_modify, wp_pure]
    split
    · have h' : Moves ev false e₀ { e with transferring := true } := h.move .handOver
      exact h'.idle rfl (Nat.le_succ _)
    · exact h
  · exact h

theorem moves_wakeHandover (id : Nat) : Keeps (Moves ev false e₀) (wakeHandover id) := fun e h => by
  have hphase : ∀ (c : Handover) (phase : HandoverPhase), Moves ev false e₀ (e.handoverPhase c phase) :=
    fun _ _ => h.idle rfl (Nat.le_refl _)
  simp only [wakeHandover, wp_modify]
  split
  · unfold Engine.stepHandover
    split
    · split
      · split
        · exact hphase _ _
        · exact h
      · split
        · exact (hphase _ _).move (.sendCall trivial)
        · exact hphase _ _
    · exact hphase _ _
    · split
      · exact h
      · exact hphase _ _
    · exact (hphase _ _).move .handOver
    · exact h
  · exact h

/-! ## Reads -/

theorem Moves.setRead (h : Moves ev false e₀ e) (c : ReadCall) (phase : ReadPhase) :
    Moves ev false e₀ (e.setRead c phase) := h.idle rfl (Nat.le_refl _)

theorem Moves.confirmed (h : Moves ev false e₀ e) (c : ReadCall) (out : Except EngineError ReadPhase) :
    Moves ev false e₀ (e.confirmed c out) := by
  unfold Engine.confirmed
  split
  · split
    · exact h.setRead _ _
    · exact (h.setRead _ _).move .answerRead
  · exact h.setRead _ _
  · split
    · exact (h.setRead _ _).move .answerRead
    · exact h.setRead _ _
    · exact h.setRead _ _

theorem Moves.stepRead (h : Moves ev false e₀ e) (c : ReadCall) : Moves ev false e₀ (e.stepRead c) := by
  unfold Engine.stepRead
  split
  · exact h.setRead _ _
  · exact h.confirmed _ _
  · exact h.confirmed _ _
  · exact h.confirmed _ _
  · unfold Engine.remoteReadIndex
    dsimp only
    generalize (if e.node.leaderId.isSome then e.leaderAddress else "") = address
    split
    · exact h.setRead _ _
    · exact (h.setRead _ _).move (.sendCall trivial)
  · exact h.setRead _ _
  · split
    · exact h.setRead _ _
    · split
      · exact h.setRead _ _
      · exact h
  · exact h
  · exact h

theorem moves_wakeRead (id : Nat) : Keeps (Moves ev false e₀) (wakeRead id) := fun e h => by
  simp only [wakeRead, wp_modify]
  split
  · exact h.stepRead _
  · exact h

/-! ## One event -/

/-- Every event but a restart is a sequence of moves. -/
theorem section_step (hev : ev ≠ .act .restart) : Section ev e (e.step ev) := by
  refine (wp_after (P := Section ev e)).mp ?_
  have h : Moves ev false e e := .refl
  have hone : ∀ {α : Type} {x : EngineM α}, wp x (fun _ => Moves ev false e)
      (fun _ => Moves ev false e) e → wp x (fun _ => Section ev e) (fun _ => Section ev e) e :=
    fun h => wp_mono h (fun _ _ => Or.inl) fun _ _ => Or.inl
  cases ev with
  | receive p =>
      cases p with
      | call env =>
          simp only [NodeEvent.body, KvCache.receive, wp_bind, wp_get, wp_ite, wp_pure]
          split
          · exact section_handleRpc rfl h
          · exact Or.inl h
      | reply env response =>
          simp only [NodeEvent.body, KvCache.receive, wp_bind, wp_get, wp_ite, wp_pure]
          split
          · rename_i hep
            exact section_handleReply rfl hep.symm
          · exact Or.inl h
  | act a =>
      cases a with
      | tick ms => exact Or.inl (h.idle rfl (Nat.le_refl _))
      | restart => exact absurd rfl hev
      | start => exact section_start h
      | stop =>
          have h' : Moves (.act .stop) false e
              { e with running := false, down := true, snapshotRx := none } :=
            h.move (.power (Or.inl rfl))
          exact Or.inl (h'.idle rfl (Nat.le_refl _))
      | electionTimeout generation => exact section_startElection h _
      | checkQuorum term => exact hone (moves_checkQuorum _ e h)
      | replicate peer term wakeup => exact hone (moves_replicate _ _ _ e h)
      | sendNext k => exact hone (moves_sendNext _ e h)
      | writeSnapshot k file => exact hone (moves_writeSnapshot rfl e h)
      | finishTransfer k => exact hone (moves_finishTransfer rfl e h)
      | beginInstall k => exact hone (moves_beginInstall _ e h)
      | finishInstall restored => exact hone (moves_finishInstall rfl e h)
      | beginApply => exact hone (moves_beginApply e h)
      | finishApply result => exact hone (moves_finishApply rfl e h)
      | stopApply => exact hone (moves_stopApply e h)
      | compact threshold => exact hone (moves_maybeSnapshot _ e h)
      | propose text username requestId timeout =>
          simp only [NodeEvent.body, Action.body, wp_bind]
          exact hone (wp_mono (moves_startProposal h (.write rfl) timeout) (fun _ _ h' => h')
            fun _ _ h' => h')
      | wakeProposal id => exact hone (moves_wakeProposal _ e h)
      | changeMembership change deadline =>
          exact hone (moves_changeMembership (Or.inr ⟨change, deadline, rfl⟩) e h)
      | wakeChange => exact hone (moves_wakeChange rfl e h)
      | transferLeadership timeout => exact hone (moves_transferLeadership _ e h)
      | wakeHandover id => exact hone (moves_wakeHandover _ e h)
      | readIndex timeout => exact Or.inl (h.idle rfl (Nat.le_succ _))
      | wakeRead id => exact hone (moves_wakeRead _ e h)

end Sections

end KvCache
