import KvCache.EngineRpc

/-!
# The Raft engine: threads

The timers, the replicators, the applier, snapshot transfer and
installation, and the client calls (`propose`, `add_member`,
`remove_member`, `transfer_leadership`, `read_index`) of `raft/node.py`.
Every function is again one section under `_state_lock`. A call that waits
on the condition variable keeps its local variables in the engine's list of
such calls; waking it up runs its loop test again, in the source's order:
the loop condition first, the check of `_wait_leader` only when it is about
to wait once more.
-/

namespace KvCache

open Engine

/-! ## Elections and check-quorum -/

/-- Open a pre-vote round for the next term. -/
def Engine.requestPreVotes (e : Engine) : Engine :=
  let e := { e.resetElectionTimer with grants := [e.nodeId] }
  let request := e.voteRequest (e.node.currentTerm + 1) true false
  e.callVoters fun peer => .preVote peer.nodeId request e.timerGeneration

/-- The election timer of this generation fired (none: `start` on a node that
is alone). A pre-vote round comes first. -/
def startElection (generation : Option Nat) : EngineM Unit := do
  let e ← get
  if ¬ e.running ∨ (generation ≠ none ∧ generation ≠ some e.timerGeneration) ∨
      e.node.state = .leader then
    pure ()
  else if ¬ e.members.contains e.nodeId then
    modify resetElectionTimer
  else if e.voters = [] then
    becomeCandidate false
  else
    modify requestPreVotes

/-- One round of the check-quorum loop of the leader of `term`. -/
def checkQuorum (term : Nat) : EngineM Unit := do
  let e ← get
  if e.running ∧ e.node.state = .leader ∧ e.node.currentTerm = term ∧
      ¬ e.hasQuorumContact e.settings.electionTimeoutMax then
    becomeFollower e.node.currentTerm

/-- `start`: a node that is alone is trivially the majority. -/
def start : EngineM Unit := do
  let e ← get
  if ¬ e.running ∧ ¬ e.down then
    modify fun e => { e with running := true }
    if e.members.keys = [e.nodeId] then
      startElection none
    else
      modify resetElectionTimer

def stop : EngineM Unit :=
  modify fun e =>
    { e with
      running := false
      down := true
      timerGeneration := e.timerGeneration + 1
      snapshotRx := none }

/-! ## Replication -/

namespace Engine

/-- Unregister the replicator that owns this wake-up event. -/
def dropReplicator (e : Engine) (peerId : NodeId) (wakeup : Nat) : Engine :=
  if e.replicators.get? peerId = some wakeup then
    { e with replicators := e.replicators.erase peerId }
  else e

def push (e : Engine) (out : Outgoing) : Engine := { e with outgoing := e.outgoing ++ [out] }

/-- Take the `k`-th request off the list. -/
def pull (e : Engine) (k : Nat) : Engine := { e with outgoing := e.outgoing.eraseIdx k }

/-- Number the next request. -/
def nextSendSeq (e : Engine) : Engine := { e with sendSeq := e.sendSeq + 1 }

/-- The request a replicator sends to a follower whose next index is
`nextIdx`. -/
def entriesRequest (e : Engine) (term nextIdx : Nat) : AppendEntriesRequest where
  term := term
  leaderId := e.nodeId
  prevLogIndex := nextIdx - 1
  prevLogTerm := e.node.termAt (nextIdx - 1)
  entries := e.node.entriesFrom nextIdx maxEntriesPerRpc
  leaderCommit := e.node.commitIndex
  leaderAddress := e.settings.raftAddress

/-- A transfer of the state machine, whose dump is `file`. -/
def newTransfer (e : Engine) (peer : NodeId) (address : String) (term : Nat)
    (file : List UInt8) : Transfer where
  peer := peer
  address := address
  term := term
  index := e.node.lastApplied
  lastTerm := (e.node.termAt e.node.lastApplied).getD 0
  config := (e.node.configAt e.node.lastApplied).getD []
  file := file

def dropTransfer (e : Engine) (k : Nat) : Engine :=
  { e with transfers := e.transfers.eraseIdx k }

end Engine

/-- The first half of a replicator's round: build what the follower misses. A
replicator whose leadership or peer is gone unregisters itself. -/
def replicate (peerId : NodeId) (term wakeup : Nat) : EngineM Unit := do
  let e ← get
  match e.targets.get? peerId with
  | none => modify (·.dropReplicator peerId wakeup)
  | some peer =>
    if ¬ e.running ∨ e.node.state ≠ .leader ∨ e.node.currentTerm ≠ term then
      modify (·.dropReplicator peerId wakeup)
    else
      match e.node.nextIndex.get? peerId with
      | none => throw .keyError
      | some nextIdx =>
        if e.node.snapshotIndex < nextIdx then
          modify (·.push (.entries peerId peer.raftAddress (e.entriesRequest term nextIdx)))
        else
          modify (·.push (.snapshotDue peerId peer.raftAddress term))

/-- Number the `k`-th request that was built and send it. -/
def sendNext (k : Nat) : EngineM Unit := do
  let e ← get
  match e.outgoing[k]? with
  | some (.entries peer address request) =>
    modify fun e => (e.pull k).nextSendSeq
    modify fun e => e.sendCall address (.appendEntries peer request e.sendSeq)
  | some (.snapshot transfer) =>
    modify fun e => (e.pull k).nextSendSeq
    modify fun e => e.sendChunk { transfer with seq := e.sendSeq }
  | _ => pure ()

/-- Take the apply lock and write the state machine, whose dump is `file`, to
a temporary file. -/
def writeSnapshot (k : Nat) (file : List UInt8) : EngineM Unit := do
  let e ← get
  match e.applyLock, e.outgoing[k]? with
  | .free, some (.snapshotDue peer address term) =>
    modify (·.pull k)
    if e.node.state = .leader ∧ e.node.currentTerm = term then
      modify (·.push (.snapshot (e.newTransfer peer address term file)))
  | _, _ => pure ()

/-- The follower has the whole snapshot. -/
def finishTransfer (k : Nat) : EngineM Unit := do
  let e ← get
  match e.transfers[k]? with
  | some transfer =>
    modify (·.dropTransfer k)
    if e.node.state = .leader ∧ e.node.currentTerm = transfer.term then
      modify (·.noteMatch transfer.peer transfer.index)
      modify advanceCommitIndex
  | none => pure ()

/-! ## Installing a snapshot -/

/-- The log and the indexes after the state machine was replaced. -/
def RaftNode.adoptSnapshot (n : RaftNode) (req : InstallSnapshotRequest) : RaftNode :=
  { n.compactThrough req.lastIncludedIndex req.lastIncludedTerm (some (req.config.getD [])) with
    commitIndex := max n.commitIndex req.lastIncludedIndex
    lastApplied := max n.lastApplied req.lastIncludedIndex }

namespace Engine

def dropInstall (e : Engine) (k : Nat) : Engine := { e with installs := e.installs.eraseIdx k }

def setLock (e : Engine) (lock : ApplyLock) : Engine := { e with applyLock := lock }

def adoptSnapshot (e : Engine) (req : InstallSnapshotRequest) : Engine :=
  { e with node := e.node.adoptSnapshot req }

/-- Answer a snapshot's last chunk. -/
def replyInstall (e : Engine) (install : Install) : Engine :=
  e.send (.reply install.env (.installSnapshot { term := e.node.currentTerm }))

end Engine

/-- Take the apply lock for the `k`-th received snapshot. One that is already
covered is answered at once. -/
def beginInstall (k : Nat) : EngineM Unit := do
  let e ← get
  match e.applyLock, e.installs[k]? with
  | .free, some install =>
    modify (·.dropInstall k)
    if install.request.lastIncludedIndex ≤ e.node.lastApplied then
      modify (·.replyInstall install)
    else
      modify (·.setLock (.installing install))
  | _, _ => pure ()

/-- The state machine is replaced; now the log, the indexes and the
membership. -/
def installSnapshot (install : Install) : EngineM Unit := do
  let req := install.request
  let e ← get
  if e.node.termAt req.lastIncludedIndex ≠ some req.lastIncludedTerm then
    storageCall .truncateFrom fun s => s.truncateFrom (e.node.snapshotIndex + 1)
  modify (·.adoptSnapshot req)
  let e ← get
  storageCall .saveSnapshot fun s => s.saveSnapshot e.node.snapshotIndex e.node.snapshotTerm
    e.node.lastApplied (some (req.config.getD []))
  modify refreshConfig
  modify (·.replyInstall install)

/-- `restore_fn` returned, or raised. -/
def finishInstall (restored : Bool) : EngineM Unit := do
  let e ← get
  match e.applyLock with
  | .installing install =>
    modify (·.setLock .free)
    if restored then
      installSnapshot install
  | _ => pure ()

/-! ## Applying -/

/-- The applier takes the next committed entry. -/
def beginApply : EngineM Unit := do
  let e ← get
  let index := e.node.lastApplied + 1
  match e.applyLock, e.node.entryAt index with
  | .free, some entry =>
    if e.running ∧ index ≤ e.node.commitIndex then
      modify (·.setLock (.applying index entry))
  | _, _ => pure ()

def Engine.compact (e : Engine) (index term : Nat) (config : Option (List Member)) : Engine :=
  { e with node := e.node.compactThrough index term config }

/-- Compact the log once enough entries are applied. -/
def maybeSnapshot (threshold : Nat) : EngineM Unit := do
  let e ← get
  let index := e.node.lastApplied
  if threshold = 0 ∨ index - e.node.snapshotIndex < threshold then
    pure ()
  else
    let term := (e.node.termAt index).getD 0
    let config := e.node.configAt index
    modify (·.compact index term config)
    storageCall .saveSnapshot fun s => s.saveSnapshot index term index config

/-- What an entry gives when `apply_fn` gives `result` for it: the no-op and
CONFIG entries never reach the state machine. -/
def Command.applied (c : Command) (result : Result) : Result :=
  match c with
  | .write _ => result
  | _ => .none

namespace Engine

/-- The entry at `index` is applied: wake its proposal. -/
def noteApplied (e : Engine) (index term : Nat) (result : Result) : Engine :=
  { e with
    applyLock := .free
    node := { e.node with lastApplied := max e.node.lastApplied index }
    waiters := if e.waiters.contains index then e.waiters.set index (some (term, result))
      else e.waiters }

end Engine

/-- The entry is applied. A leader that removed itself steps down. -/
def finishApply (result : Result) : EngineM Unit := do
  let e ← get
  match e.applyLock with
  | .applying index entry =>
    modify (·.noteApplied index entry.term (entry.command.applied result))
    let e ← get
    if (parseConfig entry.command).isSome ∧ e.node.state = .leader ∧
        ¬ e.members.contains e.nodeId ∧ e.configIndex ≤ e.node.lastApplied then
      becomeFollower e.node.currentTerm
    maybeSnapshot e.settings.snapshotThreshold
  | _ => pure ()

/-- The engine stopped while `apply_fn` kept raising. -/
def stopApply : EngineM Unit := do
  let e ← get
  match e.applyLock with
  | .applying _ _ => if ¬ e.running then modify (·.setLock .free)
  | _ => pure ()

/-! ## Proposals -/

namespace Engine

/-- The entry a client's command becomes. -/
def newEntry (e : Engine) (command : Command) (username requestId : String) : LogEntry where
  term := e.node.currentTerm
  index := e.node.lastLogIndex + 1
  command := command
  username := username
  requestId := requestId

/-- Someone waits for the entry at `index`. -/
def addWaiter (e : Engine) (index : Nat) : Engine :=
  { e with waiters := e.waiters.set index none }

def addProposal (e : Engine) (entry : LogEntry) (timeout : Nat) : Engine :=
  { e with
    nextCall := e.nextCall + 1
    proposals := e.proposals ++
      [{ id := e.nextCall, entry := entry, deadline := e.clock + timeout }] }

def endProposal (e : Engine) (p : Proposal) (phase : ProposalPhase) : Engine :=
  { e with
    waiters := e.waiters.erase p.entry.index
    proposals := e.proposals.map fun q => if q.id = p.id then { q with phase := phase } else q }

end Engine

/-- The first section of `propose`: append one entry to our log. -/
def propose (command : Command) (username requestId : String) : EngineM LogEntry := do
  let e ← get
  if ¬ e.running ∨ e.transferring then
    throw (.notLeader none)
  else if e.node.state ≠ .leader then
    throw (.notLeader e.node.leaderId)
  else
    let entry := e.newEntry command username requestId
    appendLocal [entry]
    modify (·.addWaiter entry.index)
    modify advanceCommitIndex
    return entry

/-- `propose`, up to its wait for the result. -/
def startProposal (command : Command) (username requestId : String) (timeout : Nat) :
    EngineM Nat := do
  let entry ← propose command username requestId
  let e ← get
  modify (·.addProposal entry timeout)
  return e.nextCall

/-- One round of the wait loop of `propose`. -/
def Engine.proposalOutcome (e : Engine) (p : Proposal) : ProposalPhase :=
  match (e.waiters.get? p.entry.index).getD none with
  | some (appliedTerm, result) =>
    if appliedTerm ≠ p.entry.term then
      .failed (.proposal "write was replaced by a new leader, retry")
    else .returned result
  | none =>
    if e.node.state ≠ .leader ∨ e.node.currentTerm ≠ p.entry.term then
      .failed (.notLeader e.node.leaderId)
    else if p.deadline ≤ e.clock ∨ ¬ e.running then
      .failed (.proposal "timed out waiting for a majority of nodes")
    else .waiting

def wakeProposal (id : Nat) : EngineM Unit := do
  let e ← get
  match e.proposals.find? (·.id = id) with
  | some p =>
    match p.phase, e.proposalOutcome p with
    | .waiting, .waiting => pure ()
    | .waiting, phase => modify (·.endProposal p phase)
    | _, _ => pure ()
  | none => pure ()

/-! ## Membership changes -/

namespace Engine

def requireLeader (e : Engine) : Option EngineError :=
  if ¬ e.running ∨ e.node.state ≠ .leader then
    some (.notLeader (if e.node.state = .leader then none else e.node.leaderId))
  else none

/-- `_wait_leader`: what it raises, none when it waits. -/
def waitLeader (e : Engine) (term deadline : Nat) (message : String) : Option EngineError :=
  if ¬ e.running ∨ e.node.state ≠ .leader ∨ e.node.currentTerm ≠ term then
    some (.notLeader (if e.node.leaderId = some e.nodeId then none else e.node.leaderId))
  else if deadline ≤ e.clock then some (.proposal message)
  else none

/-- The membership call goes on in `phase`. -/
def changePhase (e : Engine) (c : ConfigChange) (phase : ConfigPhase) : Engine :=
  { e with configChange := some { c with phase := phase } }

/-- The membership call ends and releases `_config_change_lock`. -/
def endChange (e : Engine) (c : ConfigChange) (error : Option EngineError) : Engine :=
  let phase : ConfigPhase := match error with
    | none => .returned
    | some error => .failed error
  { e with configChange := none, changes := e.changes ++ [{ c with phase := phase }] }

def addLearner (e : Engine) (m : Member) : Engine :=
  { e with learners := e.learners.set m.nodeId m }

def dropLearner (e : Engine) (nodeId : NodeId) : Engine :=
  { e with learners := e.learners.erase nodeId }

/-- The catch-up loop of `add_member`, by the leader of `term`. -/
def catchUpLearner (e : Engine) (c : ConfigChange) (m : Member) (term : Nat) : Engine :=
  if maxEntriesPerRpc < e.node.lastLogIndex - e.node.matchIndex.getD m.nodeId 0 then
    match e.waitLeader term c.deadline (m.nodeId ++ " did not catch up in time") with
    | some error => (e.dropLearner m.nodeId).endChange c (some error)
    | none => e.changePhase c (.catchUp term)
  else e.changePhase c (.propose (e.members.values ++ [m]))

/-- The rest of the locked block once the configuration is idle. -/
def changeIdle (e : Engine) (c : ConfigChange) : Engine :=
  match c.change with
  | .add m => ((e.addLearner m).startReplicator m.nodeId).catchUpLearner c m e.node.currentTerm
  | .remove nodeId => e.changePhase c (.propose (e.members.values.filter (·.nodeId ≠ nodeId)))

/-- The loop of `_wait_config_idle`: our own no-op and the latest CONFIG entry
must be committed. -/
def waitConfigIdle (e : Engine) (c : ConfigChange) (term : Nat) : Engine :=
  if e.node.commitIndex < max e.termStartIndex e.configIndex then
    match e.waitLeader term c.deadline "another membership change is still in progress" with
    | some error => e.endChange c (some error)
    | none => e.changePhase c (.waitIdle term)
  else e.changeIdle c

/-- What `add_member` or `remove_member` answers at once: an error, or none
because there is nothing to do. -/
def changeRefused (e : Engine) : Change → Option (Option EngineError)
  | .add m =>
    match e.members.get? m.nodeId with
    | some existing =>
      if existing = m then some none
      else some (some (.configChange
        (m.nodeId ++ " is already a member with different addresses")))
    | none => none
  | .remove nodeId =>
    if ¬ e.members.contains nodeId then
      some (some (.configChange (nodeId ++ " is not a member")))
    else if e.members.size = 1 then
      some (some (.configChange "cannot remove the last member"))
    else none

/-- The `finally` block of `add_member`. -/
def forgetLearner (e : Engine) : Change → Engine
  | .add m => if e.members.contains m.nodeId then e else e.dropLearner m.nodeId
  | .remove _ => e

end Engine

/-- `add_member` or `remove_member` got `_config_change_lock`. -/
def changeMembership (change : Change) (deadline : Nat) : EngineM Unit :=
  modify fun e =>
    if e.configChange.isSome then e
    else
      let c : ConfigChange :=
        { change := change
          since := e.node.currentTerm
          deadline := deadline
          phase := .waitIdle e.node.currentTerm }
      match e.requireLeader with
      | some error => e.endChange c (some error)
      | none =>
        match e.changeRefused change with
        | some error? => e.endChange c error?
        | none => e.waitConfigIdle c e.node.currentTerm

/-- The call of `propose` with the membership computed before. -/
def proposeConfig (c : ConfigChange) (members : List Member) : EngineM Unit := do
  let e ← get
  try
    let id ← startProposal (configCommand members) "" "" (max (c.deadline - e.clock) 1000)
    modify (·.changePhase c (.await id))
  catch error =>
    modify (·.changePhase c (.ending (some error)))

/-- The membership call runs on. -/
def wakeChange : EngineM Unit := do
  let e ← get
  match e.configChange with
  | none => pure ()
  | some c =>
    match c.phase with
    | .waitIdle term => modify (·.waitConfigIdle c term)
    | .catchUp term =>
      match c.change with
      | .add m => modify (·.catchUpLearner c m term)
      | .remove _ => pure ()
    | .propose members => proposeConfig c members
    | .await id =>
      match e.proposals.find? (·.id = id) with
      | some p =>
        match p.phase with
        | .waiting => pure ()
        | .returned _ => modify (·.changePhase c (.ending none))
        | .failed error => modify (·.changePhase c (.ending (some error)))
      | none => pure ()
    | .ending error? => modify fun e => (e.forgetLearner c.change).endChange c error?
    | .returned | .failed _ => pure ()

/-! ## Leadership transfer -/

/-- The first of the voters with the highest match index. -/
def Engine.handoverTarget (e : Engine) : Option NodeId :=
  (e.voters.map (·.nodeId)).foldl (fun best p =>
    match best with
    | none => some p
    | some b =>
      if e.node.matchIndex.getD b 0 < e.node.matchIndex.getD p 0 then some p else some b) none

def Engine.addHandover (e : Engine) (target : NodeId) (timeout : Nat) : Engine :=
  { e with
    transferring := true
    nextCall := e.nextCall + 1
    handovers := e.handovers ++
      [{ id := e.nextCall, term := e.node.currentTerm, target := target
         deadline := e.clock + timeout }] }

def transferLeadership (timeout : Nat) : EngineM Unit := do
  let e ← get
  match e.handoverTarget with
  | some target =>
    if e.node.state = .leader then
      modify (·.addHandover target timeout)
  | none => pure ()

def Engine.handoverPhase (e : Engine) (c : Handover) (phase : HandoverPhase) : Engine :=
  { e with handovers := e.handovers.map fun d =>
    if d.id = c.id then { d with phase := phase } else d }

/-- The transfer runs on; while it waits for the reply this means that the
call failed. -/
def Engine.stepHandover (e : Engine) (c : Handover) : Engine :=
  match c.phase with
  | .catchUp =>
    if e.node.matchIndex.getD c.target 0 < e.node.lastLogIndex then
      if e.node.state ≠ .leader ∨ e.node.currentTerm ≠ c.term ∨ c.deadline ≤ e.clock then
        e.handoverPhase c .ending
      else e
    else
      match e.members.get? c.target with
      | some m => (e.handoverPhase c .awaitReply).sendCall m.raftAddress
          (.timeoutNow { term := c.term, leaderId := e.nodeId } c.id)
      | none => e.handoverPhase c .ending
  | .awaitReply => e.handoverPhase c .ending
  | .awaitStepDown =>
    if e.node.state = .leader ∧ e.clock < c.deadline then e else e.handoverPhase c .ending
  | .ending => { e.handoverPhase c .returned with transferring := false }
  | .returned => e

def wakeHandover (id : Nat) : EngineM Unit :=
  modify fun e =>
    match e.handovers.find? (·.id = id) with
    | some c => e.stepHandover c
    | none => e

/-! ## Linearizable reads -/

namespace Engine

/-- The second loop of `_confirm_read_index`: a majority has answered a
request numbered after `start`. `waitApplied` stands for its return. -/
def awaitAcks (e : Engine) (start term index deadline : Nat) : Except EngineError ReadPhase :=
  if e.majority ≤ e.countMembers fun m => m = e.nodeId ∨ start < e.lastAckSeq.getD m 0 then
    .ok (.waitApplied index)
  else
    match e.waitLeader term deadline "timed out confirming leadership" with
    | some error => .error error
    | none => .ok (.waitAcks start term index)

/-- Its first loop: until our own no-op commits we don't know what is
committed. -/
def awaitNoop (e : Engine) (start term deadline : Nat) : Except EngineError ReadPhase :=
  if e.node.commitIndex < e.termStartIndex then
    match e.waitLeader term deadline "timed out confirming leadership" with
    | some error => .error error
    | none => .ok (.waitNoop start term)
  else e.awaitAcks start term e.node.commitIndex deadline

def confirmReadIndex (e : Engine) (deadline : Nat) : Except EngineError ReadPhase :=
  match e.requireLeader with
  | some error => .error error
  | none => e.awaitNoop e.sendSeq e.node.currentTerm deadline

def setRead (e : Engine) (c : ReadCall) (phase : ReadPhase) : Engine :=
  { e with reads := e.reads.map fun d => if d.id = c.id then { d with phase := phase } else d }

def replyRead (e : Engine) (env : Envelope) (success : Bool) (index : Nat) : Engine :=
  e.send (.reply env (.readIndex { term := e.node.currentTerm, success := success, index := index }))

/-- How a read goes on after a section of `_confirm_read_index`. -/
def confirmed (e : Engine) (c : ReadCall) : Except EngineError ReadPhase → Engine
  | .ok (.waitApplied index) =>
    match c.origin with
    | none => e.setRead c (.waitApplied index)
    | some env => (e.setRead c (.returned index)).replyRead env true index
  | .ok phase => e.setRead c phase
  | .error error =>
    match c.origin, error with
    | some env, _ => (e.setRead c .failed).replyRead env false 0
    | none, .notLeader _ => e.setRead c (c.retry e.clock).phase
    | none, _ => e.setRead c .failed

/-- `_remote_read_index`: ask the leader. -/
def remoteReadIndex (e : Engine) (c : ReadCall) : Engine :=
  let address := if e.node.leaderId.isSome then e.leaderAddress else ""
  if address = "" then e.setRead c (c.retry e.clock).phase
  else (e.setRead c .awaitReply).sendCall address
    (.readIndex { term := e.node.currentTerm, nodeId := e.nodeId } c.id)

/-- The read runs on; while it waits for the reply this means that the call
failed. -/
def stepRead (e : Engine) (c : ReadCall) : Engine :=
  match c.phase with
  | .start => e.setRead c (if e.node.state = .leader then .confirm else .remote)
  | .confirm => e.confirmed c (e.confirmReadIndex c.deadline)
  | .waitNoop start term => e.confirmed c (e.awaitNoop start term c.deadline)
  | .waitAcks start term index => e.confirmed c (e.awaitAcks start term index c.deadline)
  | .remote => e.remoteReadIndex c
  | .awaitReply => e.setRead c (c.retry e.clock).phase
  | .waitApplied index =>
    if index ≤ e.node.lastApplied then e.setRead c (.returned index)
    else if c.deadline ≤ e.clock ∨ ¬ e.running then e.setRead c .failed
    else e
  | .returned _ | .failed => e

end Engine

/-- A `read_index` call starts. -/
def readIndex (timeout : Nat) : EngineM Unit :=
  modify fun e =>
    { e with
      nextCall := e.nextCall + 1
      reads := e.reads ++
        [{ id := e.nextCall, origin := none, deadline := e.clock + timeout, phase := .start }] }

def wakeRead (id : Nat) : EngineM Unit :=
  modify fun e =>
    match e.reads.find? (·.id = id) with
    | some c => e.stepRead c
    | none => e

/-! ## Runs of one node -/

/-- What one node can do besides receiving a packet. -/
inductive Action where
  | tick (ms : Nat)
  /-- crash, if it is up, and run the constructor on the same storage -/
  | restart
  | start
  | stop
  | electionTimeout (generation : Nat)
  | checkQuorum (term : Nat)
  | replicate (peer : NodeId) (term wakeup : Nat)
  | sendNext (k : Nat)
  | writeSnapshot (k : Nat) (file : List UInt8)
  | finishTransfer (k : Nat)
  | beginInstall (k : Nat)
  | finishInstall (restored : Bool)
  | beginApply
  | finishApply (result : Result)
  | stopApply
  | compact (threshold : Nat)
  /-- a client write; the membership commands come from `changeMembership` -/
  | propose (text username requestId : String) (timeout : Nat)
  | wakeProposal (id : Nat)
  | changeMembership (change : Change) (deadline : Nat)
  | wakeChange
  | transferLeadership (timeout : Nat)
  | wakeHandover (id : Nat)
  | readIndex (timeout : Nat)
  | wakeRead (id : Nat)

/-- The section an action runs. -/
def Action.body : Action → EngineM Unit
  | .tick ms => modify fun e => { e with clock := e.clock + ms }
  | .restart => construct
  | .start => KvCache.start
  | .stop => KvCache.stop
  | .electionTimeout generation => startElection (some generation)
  | .checkQuorum term => KvCache.checkQuorum term
  | .replicate peer term wakeup => KvCache.replicate peer term wakeup
  | .sendNext k => KvCache.sendNext k
  | .writeSnapshot k file => KvCache.writeSnapshot k file
  | .finishTransfer k => KvCache.finishTransfer k
  | .beginInstall k => KvCache.beginInstall k
  | .finishInstall restored => KvCache.finishInstall restored
  | .beginApply => KvCache.beginApply
  | .finishApply result => KvCache.finishApply result
  | .stopApply => KvCache.stopApply
  | .compact threshold => maybeSnapshot threshold
  | .propose text username requestId timeout => do
    let _ ← startProposal (.write text) username requestId timeout
  | .wakeProposal id => KvCache.wakeProposal id
  | .changeMembership change deadline => KvCache.changeMembership change deadline
  | .wakeChange => KvCache.wakeChange
  | .transferLeadership timeout => KvCache.transferLeadership timeout
  | .wakeHandover id => KvCache.wakeHandover id
  | .readIndex timeout => KvCache.readIndex timeout
  | .wakeRead id => KvCache.wakeRead id

/-- A packet arrives. A stopped node behaves like a crashed one, and a reply
only reaches the process that made the call. -/
def receive : Packet → EngineM Unit
  | .call env => do
    let e ← get
    if e.running then handleRpc env
  | .reply env response => do
    let e ← get
    if e.epoch = env.epoch then handleReply env response

inductive NodeEvent where
  | receive (packet : Packet)
  | act (action : Action)

def NodeEvent.body : NodeEvent → EngineM Unit
  | .receive packet => KvCache.receive packet
  | .act action => action.body

namespace Engine

/-- One section, raised or not. -/
def step (e : Engine) (ev : NodeEvent) : Engine := StateWp.after ev.body e

/-- One section after another. -/
def run (e : Engine) (evs : List NodeEvent) : Engine := evs.foldl step e

/-- A node whose constructor ran for the first time, on an empty storage. -/
def boot (settings : Settings) (faults : StorageCall → List Bool) : Engine :=
  StateWp.after construct { settings := settings, faults := faults }

end Engine

end KvCache
