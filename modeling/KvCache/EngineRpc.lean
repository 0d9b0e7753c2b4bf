import KvCache.Engine

/-!
# The Raft engine: messages

The RPC handlers of `raft/node.py` and what its threads do with a reply.
Each function is one section that runs with `_state_lock` held; the last
chunk of a snapshot only queues the installation (`installs`), whose
sections are in `EngineThreads`.
-/

namespace KvCache

namespace Engine

/-- The candidate's log is at least as up-to-date as ours. -/
def logOk (e : Engine) (req : RequestVoteRequest) : Bool :=
  e.node.lastLogTerm < req.lastLogTerm ∨
    (req.lastLogTerm = e.node.lastLogTerm ∧ e.node.lastLogIndex ≤ req.lastLogIndex)

/-- Vote for a candidate, in memory. -/
def castVote (e : Engine) (candidateId : NodeId) : Engine :=
  { e with node := { e.node with votedFor := some candidateId } }

/-- The commit index after an accepted AppendEntries that matched up to
`lastNew`. -/
def followCommit (e : Engine) (leaderCommit lastNew : Nat) : Engine :=
  if e.node.commitIndex < leaderCommit then
    { e with node :=
      { e.node with commitIndex := max e.node.commitIndex (min leaderCommit lastNew) } }
  else e

/-- The file a chunk goes to: offset 0 starts a new one, any other offset
continues the one we have. -/
def chunkFile (e : Engine) (req : InstallSnapshotRequest) : Option SnapshotRx :=
  if req.offset = 0 then some { index := req.lastIncludedIndex, data := [] }
  else e.snapshotRx.filter fun rx =>
    rx.index = req.lastIncludedIndex ∧ rx.data.length = req.offset

def keepChunks (e : Engine) (rx : SnapshotRx) : Engine := { e with snapshotRx := some rx }

/-- The snapshot is complete. -/
def queueInstall (e : Engine) (install : Install) : Engine :=
  { e with snapshotRx := none, installs := e.installs ++ [install] }

/-- A call of `_confirm_read_index` for another node. -/
def acceptRead (e : Engine) (env : Envelope) : Engine :=
  { e with
    nextCall := e.nextCall + 1
    reads := e.reads ++ [{ id := e.nextCall, origin := some env
                           deadline := e.clock + 2 * rpcTimeout, phase := .confirm }] }

end Engine

namespace RaftNode

/-- The loop that backs up from `first` to the first index of the conflicting
term. -/
def firstOfTerm (n : RaftNode) (term : Option Nat) : Nat → Nat
  | 0 => 0
  | first + 1 =>
    if n.snapshotIndex < first ∧ n.termAt first = term then n.firstOfTerm term first
    else first + 1

/-- The entries of a request, with index and term of the entry before them,
once those inside our snapshot are skipped. -/
def skipCovered (n : RaftNode) (req : AppendEntriesRequest) :
    List LogEntry × Nat × Option Nat :=
  if req.prevLogIndex < n.snapshotIndex then
    (req.entries.drop (n.snapshotIndex - req.prevLogIndex), n.snapshotIndex,
      some n.snapshotTerm)
  else (req.entries, req.prevLogIndex, req.prevLogTerm)

end RaftNode

open Engine

/-! ## Handlers -/

/-- The vote itself, once our term is at least the candidate's. It is
persisted before we reply. -/
def decideVote (req : RequestVoteRequest) : EngineM RequestVoteResponse := do
  let e ← get
  if req.term < e.node.currentTerm ∨
      (e.node.votedFor ≠ none ∧ e.node.votedFor ≠ some req.candidateId) ∨
      ¬ e.logOk req then
    return { term := e.node.currentTerm, voteGranted := false }
  else
    modify (·.castVote req.candidateId)
    persistTermAndVote
    modify resetElectionTimer
    return { term := e.node.currentTerm, voteGranted := true }

def handleRequestVote (req : RequestVoteRequest) : EngineM RequestVoteResponse := do
  let e ← get
  if req.preVote then
    -- answered without changing anything
    return { term := e.node.currentTerm
             voteGranted := e.node.currentTerm < req.term ∧ ¬ e.inLeaderLease ∧ e.logOk req }
  else if e.node.currentTerm < req.term ∧ ¬ req.transfer ∧ e.inLeaderLease then
    -- a disruptive candidate: its term is not adopted
    return { term := e.node.currentTerm, voteGranted := false }
  else
    if e.node.currentTerm < req.term then
      becomeFollower req.term
    decideVote req

/-- The loop over the entries of a request: the entries that have to be
appended, after a conflicting tail of our log has been cut off. -/
def dropConflict : List LogEntry → EngineM (List LogEntry)
  | [] => pure []
  | entry :: rest => do
    let e ← get
    if e.node.termAt entry.index = none then
      return entry :: rest
    else if e.node.termAt entry.index ≠ some entry.term then
      truncateLocal entry.index
      return entry :: rest
    else
      dropConflict rest

/-- Make our log hold `entries`. -/
def mergeEntries (entries : List LogEntry) : EngineM Unit := do
  let newEntries ← dropConflict entries
  if newEntries ≠ [] then
    appendLocal newEntries

/-- The accepting half of `_handle_append_entries`: our log holds
`prevIndex`. -/
def appendFrom (req : AppendEntriesRequest) (entries : List LogEntry) (prevIndex : Nat) :
    EngineM AppendEntriesResponse := do
  mergeEntries entries
  -- only entries this request proved to match may be committed
  let lastNew := prevIndex + entries.length
  modify (·.followCommit req.leaderCommit lastNew)
  let e ← get
  return { term := e.node.currentTerm, success := true, matchIndex := lastNew }

def handleAppendEntries (req : AppendEntriesRequest) : EngineM AppendEntriesResponse := do
  let e ← get
  if req.term < e.node.currentTerm then
    return { term := e.node.currentTerm, success := false }
  else
    acceptLeader req.term req.leaderId req.leaderAddress
    let e ← get
    let n := e.node
    let (entries, prevIndex, prevTerm) := n.skipCovered req
    if n.lastLogIndex < prevIndex then
      return { term := n.currentTerm, success := false, conflictIndex := n.lastLogIndex + 1 }
    else if n.termAt prevIndex ≠ prevTerm then
      return { term := n.currentTerm, success := false
               conflictIndex := n.firstOfTerm (n.termAt prevIndex) prevIndex }
    else
      appendFrom req entries prevIndex

/-- Receive one snapshot chunk. The last one is answered only after the
installation (none). -/
def handleInstallSnapshot (env : Envelope) (req : InstallSnapshotRequest) :
    EngineM (Option InstallSnapshotResponse) := do
  let e ← get
  if req.term < e.node.currentTerm then
    return some { term := e.node.currentTerm, success := false }
  else
    acceptLeader req.term req.leaderId req.leaderAddress
    let e ← get
    let term := e.node.currentTerm
    if req.lastIncludedIndex ≤ e.node.lastApplied then
      return some { term := term }
    else
      match e.chunkFile req with
      | none => return some { term := term, success := false }
      | some rx =>
        let rx := { rx with data := rx.data ++ req.data }
        if req.done then
          modify (·.queueInstall ⟨env, req, rx.data⟩)
          return none
        else
          modify (·.keepChunks rx)
          return some { term := term }

def handleTimeoutNow (req : TimeoutNowRequest) : EngineM TimeoutNowResponse := do
  let e ← get
  if e.node.currentTerm ≤ req.term ∧ e.members.contains e.nodeId ∧ e.node.state ≠ .leader then
    becomeCandidate true
  let e ← get
  return { term := e.node.currentTerm }

/-- The handler thread enters `_confirm_read_index` in its own section. -/
def handleReadIndex (env : Envelope) : EngineM Unit := modify (·.acceptRead env)

/-- Dispatch one incoming call. A handler that raises sends no reply. -/
def handleRpc (env : Envelope) : EngineM Unit :=
  match env.call with
  | .preVote _ request _ | .requestVote _ request => do
    let response ← handleRequestVote request
    modify (·.send (.reply env (.requestVote response)))
  | .appendEntries _ request _ => do
    let response ← handleAppendEntries request
    modify (·.send (.reply env (.appendEntries response)))
  | .installSnapshot request _ => do
    let response? ← handleInstallSnapshot env request
    match response? with
    | some response => modify (·.send (.reply env (.installSnapshot response)))
    | none => pure ()
  | .timeoutNow request _ => do
    let response ← handleTimeoutNow request
    modify (·.send (.reply env (.timeoutNow response)))
  | .readIndex _ _ => handleReadIndex env

/-! ## Replies -/

namespace Engine

/-- Add a node to the yeses of the pre-vote round. -/
def addGrant (e : Engine) (peer : NodeId) : Engine :=
  { e with grants := if peer ∈ e.grants then e.grants else e.grants ++ [peer] }

def addVote (e : Engine) (peer : NodeId) : Engine :=
  { e with votes := if peer ∈ e.votes then e.votes else e.votes ++ [peer] }

/-- A peer answered request number `seq` of our term. -/
def noteContact (e : Engine) (peer : NodeId) (seq : Nat) : Engine :=
  { e with
    lastContact := e.lastContact.set peer e.clock
    lastAckSeq := e.lastAckSeq.set peer (max (e.lastAckSeq.getD peer 0) seq) }

/-- A peer's log matches ours up to `index`. -/
def noteMatch (e : Engine) (peer : NodeId) (index : Nat) : Engine :=
  let index := max (e.node.matchIndex.getD peer 0) index
  { e with node :=
    { e.node with
      matchIndex := e.node.matchIndex.set peer index
      nextIndex := e.node.nextIndex.set peer (index + 1) } }

/-- The logs disagree: back up and try again. -/
def backUp (e : Engine) (peer : NodeId) (prevLogIndex conflictIndex : Nat) : Engine :=
  let hint := if conflictIndex = 0 then prevLogIndex else conflictIndex
  { e with node :=
    { e.node with nextIndex := e.node.nextIndex.set peer (max 1 (min hint prevLogIndex)) } }

/-- Send the chunk at the offset of `transfer`. -/
def sendChunk (e : Engine) (transfer : Transfer) : Engine :=
  let chunk := (transfer.file.drop transfer.offset).take snapshotChunkSize
  e.sendCall transfer.address (.installSnapshot
    { term := transfer.term
      leaderId := e.nodeId
      lastIncludedIndex := transfer.index
      lastIncludedTerm := transfer.lastTerm
      offset := transfer.offset
      data := chunk
      done := transfer.file.length ≤ transfer.offset + chunk.length
      config := some transfer.config
      leaderAddress := e.settings.raftAddress } transfer)

def queueTransfer (e : Engine) (transfer : Transfer) : Engine :=
  { e with transfers := e.transfers ++ [transfer] }

end Engine

def preVoteReply (peer : NodeId) (round : Nat) (response : RequestVoteResponse) :
    EngineM Unit := do
  let e ← get
  if e.node.currentTerm < response.term then
    becomeFollower response.term
  else if round ≠ e.timerGeneration ∨ e.node.state = .leader ∨ ¬ response.voteGranted then
    -- a leader spoke up, or we voted, since we asked
    pure ()
  else
    modify (·.addGrant peer)
    let e ← get
    if e.majority ≤ e.countVotes e.grants then
      becomeCandidate false

def requestVoteReply (peer : NodeId) (request : RequestVoteRequest)
    (response : RequestVoteResponse) : EngineM Unit := do
  let e ← get
  if e.node.currentTerm < response.term then
    becomeFollower response.term
  else if e.node.state ≠ .candidate ∨ e.node.currentTerm ≠ request.term ∨
      ¬ response.voteGranted then
    -- election already decided, or vote refused
    pure ()
  else
    modify (·.addVote peer)
    let e ← get
    if e.majority ≤ e.countVotes e.votes then
      becomeLeader

def appendEntriesReply (peer : NodeId) (request : AppendEntriesRequest) (seq : Nat)
    (response : AppendEntriesResponse) : EngineM Unit := do
  let e ← get
  if e.node.currentTerm < response.term then
    becomeFollower response.term
  else if e.node.state ≠ .leader ∨ e.node.currentTerm ≠ request.term then
    pure ()
  else
    modify (·.noteContact peer seq)
    if response.success then
      modify (·.noteMatch peer
        (max (request.prevLogIndex + request.entries.length) response.matchIndex))
      modify advanceCommitIndex
    else
      modify (·.backUp peer request.prevLogIndex response.conflictIndex)

def installSnapshotReply (request : InstallSnapshotRequest) (transfer : Transfer)
    (response : InstallSnapshotResponse) : EngineM Unit := do
  let e ← get
  if e.node.currentTerm < response.term then
    becomeFollower response.term
  else if e.node.state ≠ .leader ∨ e.node.currentTerm ≠ transfer.term then
    pure ()
  else
    modify (·.noteContact transfer.peer transfer.seq)
    if response.success then
      let transfer := { transfer with offset := transfer.offset + request.data.length }
      if request.done then
        modify (·.queueTransfer transfer)
      else
        modify (·.sendChunk transfer)

def timeoutNowReply (handover : Nat) : EngineM Unit :=
  modify fun e => { e with handovers := e.handovers.map fun c =>
    if c.id = handover then
      match c.phase with
      | .awaitReply => { c with phase := .awaitStepDown }
      | _ => c
    else c }

/-- `read_index` catches the NotLeaderError and tries again until its
deadline. -/
def ReadCall.retry (c : ReadCall) (clock : Nat) : ReadCall :=
  { c with phase := if c.deadline ≤ clock then .failed else .start }

def readIndexReply (read : Nat) (response : ReadIndexResponse) : EngineM Unit :=
  modify fun e => { e with reads := e.reads.map fun c =>
    if c.id = read then
      match c.phase with
      | .awaitReply =>
        if response.success then { c with phase := .waitApplied response.index }
        else c.retry e.clock
      | _ => c
    else c }

/-- The thread that made a call gets its reply. A reply of another kind than
the call does not decode. -/
def handleReply (env : Envelope) (response : Response) : EngineM Unit :=
  match env.call, response with
  | .preVote peer _ round, .requestVote r => preVoteReply peer round r
  | .requestVote peer request, .requestVote r => requestVoteReply peer request r
  | .appendEntries peer request seq, .appendEntries r => appendEntriesReply peer request seq r
  | .installSnapshot request transfer, .installSnapshot r =>
    installSnapshotReply request transfer r
  | .timeoutNow _ handover, .timeoutNow _ => timeoutNowReply handover
  | .readIndex _ read, .readIndex r => readIndexReply read r
  | _, _ => pure ()

end KvCache
