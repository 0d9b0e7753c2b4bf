import KvCache.RaftStorage
import KvCache.StateWp

/-!
# The Raft engine: state and transitions

`raft/node.py`, class `RaftEngine`: its attributes, the helpers that run
with `_state_lock` held and the role changes. A method that calls the
storage is an `EngineM`, because a storage call may raise and then leaves
the engine half-changed; every other helper is a function on `Engine`.

Besides the attributes an `Engine` holds what its threads keep while they
do not hold the lock: requests built but not yet numbered, snapshots being
received, reads and proposals under way. Threads that wait for a reply are
not stored; their local variables travel with the request (`Call`) and come
back with its reply.

Time is the number `clock` of milliseconds, moved by its own event. Which
storage calls raise is fixed in advance, one list of outcomes for each kind
of call (`faults`).
-/

namespace KvCache

/-! ## What threads remember between two sections -/

/-- A run of `_send_snapshot_to` after it wrote the snapshot file. -/
structure Transfer where
  peer : NodeId
  address : String
  term : Nat
  index : Nat
  lastTerm : Nat
  config : List Member
  file : List UInt8
  seq : Nat := 0
  offset : Nat := 0

/-- One `_call`, with what its thread needs once the reply arrives. -/
inductive Call where
  | preVote (peer : NodeId) (request : RequestVoteRequest) (round : Nat)
  | requestVote (peer : NodeId) (request : RequestVoteRequest)
  | appendEntries (peer : NodeId) (request : AppendEntriesRequest) (seq : Nat)
  | installSnapshot (request : InstallSnapshotRequest) (transfer : Transfer)
  | timeoutNow (request : TimeoutNowRequest) (handover : Nat)
  | readIndex (request : ReadIndexRequest) (read : Nat)

/-- A call on its way to the node listening at `address`, made by the process
number `epoch` of node `src`. -/
structure Envelope where
  src : NodeId
  epoch : Nat
  address : String
  call : Call

inductive Response where
  | requestVote (r : RequestVoteResponse)
  | appendEntries (r : AppendEntriesResponse)
  | installSnapshot (r : InstallSnapshotResponse)
  | timeoutNow (r : TimeoutNowResponse)
  | readIndex (r : ReadIndexResponse)

/-- What is on the wire: a call, or the reply to one. -/
inductive Packet where
  | call (env : Envelope)
  | reply (env : Envelope) (response : Response)

/-- What a replicator thread is about to do: number and send a request it
built, take the apply lock for a snapshot, or number and send a snapshot. -/
inductive Outgoing where
  | entries (peer : NodeId) (address : String) (request : AppendEntriesRequest)
  | snapshotDue (peer : NodeId) (address : String) (term : Nat)
  | snapshot (transfer : Transfer)

/-- The snapshot being received: its index and the temporary file so far. -/
structure SnapshotRx where
  index : Nat
  data : List UInt8

/-- A completely received snapshot, waiting to be installed. -/
structure Install where
  env : Envelope
  request : InstallSnapshotRequest
  data : List UInt8

/-- Who holds `_apply_lock` between two sections. -/
inductive ApplyLock where
  | free
  | applying (index : Nat) (entry : LogEntry)
  | installing (install : Install)

inductive EngineError where
  | storage
  | notLeader (leaderId : Option NodeId)
  | proposal (message : String)
  | configChange (message : String)
  | keyError

inductive ProposalPhase where
  | waiting
  | returned (result : Result)
  | failed (error : EngineError)

/-- A `propose` call after it appended its entry. -/
structure Proposal where
  id : Nat
  entry : LogEntry
  deadline : Nat
  phase : ProposalPhase := .waiting

inductive Change where
  | add (member : Member)
  | remove (nodeId : NodeId)

inductive ConfigPhase where
  /-- in `_wait_config_idle`, which noted `term` -/
  | waitIdle (term : Nat)
  /-- the new member is a learner of the leader of `term` -/
  | catchUp (term : Nat)
  /-- the new membership is computed, `propose` not yet called -/
  | propose (members : List Member)
  /-- inside `propose` -/
  | await (proposal : Nat)
  /-- about to run the `finally` block -/
  | ending (error : Option EngineError)
  | returned
  | failed (error : EngineError)

/-- An `add_member` or `remove_member` call. Nothing reads `since`, the term
in which `_require_leader` let the call pass. -/
structure ConfigChange where
  change : Change
  since : Nat
  deadline : Nat
  phase : ConfigPhase

inductive HandoverPhase where
  | catchUp
  | awaitReply
  | awaitStepDown
  /-- about to clear `_transferring` -/
  | ending
  | returned

/-- A `transfer_leadership` call. -/
structure Handover where
  id : Nat
  term : Nat
  target : NodeId
  deadline : Nat
  phase : HandoverPhase := .catchUp

inductive ReadPhase where
  /-- about to look who leads -/
  | start
  /-- about to enter `_confirm_read_index` -/
  | confirm
  /-- about to enter `_remote_read_index` -/
  | remote
  /-- waiting for our no-op to commit -/
  | waitNoop (start term : Nat)
  /-- waiting for a majority to answer -/
  | waitAcks (start term index : Nat)
  | awaitReply
  | waitApplied (index : Nat)
  | returned (index : Nat)
  | failed

/-- A `read_index` call, or the leader's side of a ReadIndex RPC (`origin`). -/
structure ReadCall where
  id : Nat
  origin : Option Envelope
  deadline : Nat
  phase : ReadPhase

/-! ## The engine -/

inductive StorageCall where
  | saveTermAndVote
  | append
  | truncateFrom
  | saveSnapshot
deriving DecidableEq

/-- What an operator may tune. Times are in milliseconds. -/
structure Tuning where
  electionTimeoutMin : Nat := 1500
  electionTimeoutMax : Nat := 3000
  snapshotThreshold : Nat := 1000

/-- The arguments of the constructor. -/
structure Settings extends Tuning where
  nodeId : NodeId
  raftAddress : String
  bootstrap : List Member

def rpcTimeout : Nat := 1000

/-- Batch size when a follower is behind. -/
def maxEntriesPerRpc : Nat := 100

/-- Bytes in one InstallSnapshot message. -/
def snapshotChunkSize : Nat := 256 * 1024

structure Engine where
  settings : Settings
  storage : MemoryRaftStorage := {}
  /-- for each kind of storage call, which of the next ones raise -/
  faults : StorageCall → List Bool := fun _ => []
  clock : Nat := 0
  /-- how often the process was started -/
  epoch : Nat := 0
  node : RaftNode := {}
  /-- current voting membership -/
  members : Dict NodeId Member := Dict.empty
  configIndex : Nat := 0
  learners : Dict NodeId Member := Dict.empty
  /-- index of the leader's own no-op -/
  termStartIndex : Nat := 0
  /-- the last term this process led; nothing reads it -/
  ledTerm : Nat := 0
  lastContact : Dict NodeId Nat := Dict.empty
  sendSeq : Nat := 0
  lastAckSeq : Dict NodeId Nat := Dict.empty
  lastLeaderContact : Nat := 0
  leaderAddress : String := ""
  transferring : Bool := false
  snapshotRx : Option SnapshotRx := none
  running : Bool := false
  /-- the constructor has not finished, or `stop` was called -/
  down : Bool := true
  timerGeneration : Nat := 0
  /-- peer and wake-up event of each registered replicator -/
  replicators : Dict NodeId Nat := Dict.empty
  /-- how many wake-up events were made -/
  wakeups : Nat := 0
  /-- log index and, once applied, the term and result of the entry there -/
  waiters : Dict Nat (Option (Nat × Result)) := Dict.empty
  /-- the yeses of the pre-vote round under way -/
  grants : List NodeId := []
  /-- the votes of the newest election -/
  votes : List NodeId := []
  applyLock : ApplyLock := .free
  installs : List Install := []
  outgoing : List Outgoing := []
  /-- snapshots whose last chunk was accepted -/
  transfers : List Transfer := []
  nextCall : Nat := 0
  proposals : List Proposal := []
  /-- the call that holds `_config_change_lock` -/
  configChange : Option ConfigChange := none
  /-- the membership calls that have ended -/
  changes : List ConfigChange := []
  handovers : List Handover := []
  reads : List ReadCall := []
  /-- what this section puts on the wire -/
  outbox : List Packet := []

abbrev EngineM := EStateM EngineError Engine

namespace Engine

abbrev nodeId (e : Engine) : NodeId := e.settings.nodeId

/-- Whether the next storage call of this kind raises. -/
def raises (e : Engine) (call : StorageCall) : Bool := (e.faults call).head? = some true

/-- The call takes its outcome off the list. -/
def useFault (e : Engine) (call : StorageCall) : Engine :=
  { e with faults := fun c => if c = call then (e.faults c).tail else e.faults c }

/-- What a storage call changes. -/
def store (e : Engine) (f : MemoryRaftStorage → MemoryRaftStorage) : Engine :=
  { e with storage := f e.storage }

/-- A storage call: it stores everything, or raises and stores nothing. -/
def storageCall (call : StorageCall) (f : MemoryRaftStorage → MemoryRaftStorage) :
    EngineM Unit := do
  let e ← get
  if e.raises call then
    set (e.useFault call)
    throw .storage
  else
    set ((e.useFault call).store f)

def send (e : Engine) (p : Packet) : Engine := { e with outbox := e.outbox ++ [p] }

/-- Put a call on the wire. -/
def sendCall (e : Engine) (address : String) (call : Call) : Engine :=
  e.send (.call { src := e.nodeId, epoch := e.epoch, address := address, call := call })

/-! ## Membership -/

/-- Votes and replicas needed: 2 of 3, 3 of 5, 1 of 1. -/
def majority (e : Engine) : Nat := e.members.size / 2 + 1

/-- How many members satisfy `p`. -/
def countMembers (e : Engine) (p : NodeId → Bool) : Nat := e.members.keys.countP p

/-- Everyone the leader replicates to: voters and learners, minus us. -/
def targets (e : Engine) : Dict NodeId Member :=
  (e.learners.items.foldl (fun d p => d.set p.1 p.2) e.members).erase e.nodeId

/-- Start the replicator for one peer if it isn't running. -/
def startReplicator (e : Engine) (peerId : NodeId) : Engine :=
  if e.replicators.contains peerId then e
  else
    let e := if e.node.nextIndex.contains peerId then e
      else
        { e with
          node :=
            { e.node with
              nextIndex := e.node.nextIndex.set peerId (e.node.lastLogIndex + 1)
              matchIndex := e.node.matchIndex.set peerId 0 }
          lastContact := e.lastContact.set peerId e.clock }
    { e with
      wakeups := e.wakeups + 1
      replicators := e.replicators.set peerId e.wakeups }

def startReplicators (e : Engine) : Engine := e.targets.keys.foldl startReplicator e

/-- The dictionary of a member list, keyed by node id. -/
def membersOf (ms : List Member) : Dict NodeId Member :=
  Dict.ofList (ms.map fun m => (m.nodeId, m))

/-- Adopt the newest membership in our log. -/
def refreshConfig (e : Engine) : Engine :=
  let (index, members) := e.node.latestConfig
  let new := membersOf (members.getD [])
  let e := { e with configIndex := index }
  if new.sameItems e.members then e
  else
    let e := { e with
      members := new
      learners := e.learners.filter fun p => ¬ new.contains p.1 }
    if e.node.state = .leader then e.startReplicators else e

/-! ## Timers and leases -/

/-- Every reset starts a timer with a new generation number. -/
def resetElectionTimer (e : Engine) : Engine :=
  { e with timerGeneration := e.timerGeneration + 1 }

/-- Did a majority of voters, counting us, answer within `window`? -/
def hasQuorumContact (e : Engine) (window : Nat) : Bool :=
  e.majority ≤ e.countMembers fun m =>
    m = e.nodeId ∨ (e.lastContact.get? m).any fun t => e.clock - t < window

/-- A live leader is known: a follower heard from it lately, or we are that
leader and in touch with a majority. -/
def inLeaderLease (e : Engine) : Bool :=
  if e.node.state = .leader then e.hasQuorumContact e.settings.electionTimeoutMin
  else e.node.leaderId.isSome ∧ e.clock - e.lastLeaderContact < e.settings.electionTimeoutMin

/-! ## Committing -/

/-- How many members hold the entry at `index`, as far as the leader knows. -/
def replicas (e : Engine) (index : Nat) : Nat :=
  e.countMembers fun m => m = e.nodeId ∨ index ≤ e.node.matchIndex.getD m 0

/-- The loop of `_advance_commit_index`, from index `k` down. -/
def scanCommit (e : Engine) : Nat → Option Nat
  | 0 => none
  | k + 1 =>
    if k + 1 ≤ e.node.commitIndex then none
    else if e.node.termAt (k + 1) ≠ some e.node.currentTerm then none
    else if e.majority ≤ e.replicas (k + 1) then some (k + 1)
    else e.scanCommit k

/-- Commit the highest index of our own term stored on a majority. -/
def advanceCommitIndex (e : Engine) : Engine :=
  if e.node.state ≠ .leader then e
  else
    match e.scanCommit e.node.lastLogIndex with
    | some index => { e with node := { e.node with commitIndex := index } }
    | none => e

def extendLog (e : Engine) (entries : List LogEntry) : Engine :=
  { e with node := { e.node with log := e.node.log ++ entries } }

def cutLog (e : Engine) (index : Nat) : Engine := { e with node := e.node.truncateFrom index }

end Engine

open Engine

/-! ## Storage and log helpers -/

def persistTermAndVote : EngineM Unit := do
  let e ← get
  storageCall .saveTermAndVote fun s => s.saveTermAndVote e.node.currentTerm e.node.votedFor

/-- Append to our log, in memory and then in storage; adopt any new
membership. -/
def appendLocal (entries : List LogEntry) : EngineM Unit := do
  modify (·.extendLog entries)
  storageCall .append fun s => s.append entries
  if entries.any fun x => (parseConfig x.command).isSome then
    modify refreshConfig

/-- Drop our log from `index` on; a dropped CONFIG entry is undone. -/
def truncateLocal (index : Nat) : EngineM Unit := do
  modify (·.cutLog index)
  storageCall .truncateFrom fun s => s.truncateFrom index
  modify refreshConfig

/-! ## Role changes -/

namespace Engine

/-- The first half of `_become_leader`: the role and the tracking of the
peers, which we assume have everything we have. -/
def takeOffice (e : Engine) : Engine :=
  let nextIdx := e.node.lastLogIndex + 1
  let e := { e with learners := Dict.empty }
  let peers := e.targets.keys
  { e with
    node :=
      { e.node with
        state := .leader
        leaderId := some e.nodeId
        nextIndex := Dict.ofList (peers.map (·, nextIdx))
        matchIndex := Dict.ofList (peers.map (·, 0)) }
    leaderAddress := e.settings.raftAddress
    transferring := false
    timerGeneration := e.timerGeneration + 1
    lastContact := Dict.ofList (peers.map (·, e.clock))
    lastAckSeq := Dict.empty
    termStartIndex := nextIdx
    ledTerm := e.node.currentTerm }

/-- Enter a higher term without a vote. -/
def enterTerm (e : Engine) (term : Nat) : Engine :=
  { e with node := { e.node with currentTerm := term, votedFor := none, leaderId := none } }

/-- The second half of `_become_follower`: give up the role. -/
def stepDown (e : Engine) : Engine :=
  let e := if e.node.state = .leader then
      { e with
        node := { e.node with leaderId := none }
        learners := Dict.empty
        transferring := false }
    else e
  { e with node := { e.node with state := .follower } }.resetElectionTimer

/-- Note the leader that talked to us. -/
def followLeader (e : Engine) (leaderId : NodeId) (address : String) : Engine :=
  { e with
    node := { e.node with leaderId := some leaderId }
    leaderAddress :=
      if address ≠ "" then address
      else match e.members.get? leaderId with
        | some m => m.raftAddress
        | none => e.leaderAddress
    lastLeaderContact := e.clock }

/-- Raise the term, stand for election and vote for ourselves. -/
def standForElection (e : Engine) : Engine :=
  { e with
    node :=
      { e.node with
        currentTerm := e.node.currentTerm + 1
        state := .candidate
        votedFor := some e.nodeId
        leaderId := none } }

/-- The request of a candidate, or of a pre-vote for the next term. -/
def voteRequest (e : Engine) (term : Nat) (preVote transfer : Bool) : RequestVoteRequest where
  term := term
  candidateId := e.nodeId
  lastLogIndex := e.node.lastLogIndex
  lastLogTerm := e.node.lastLogTerm
  preVote := preVote
  transfer := transfer

/-- The members other than us. -/
def voters (e : Engine) : List Member := e.members.values.filter (·.nodeId ≠ e.nodeId)

/-- How many of the nodes in `votes` are members. -/
def countVotes (e : Engine) (votes : List NodeId) : Nat := e.countMembers (· ∈ votes)

/-- Our own vote is the first of the new election. -/
def openBallot (e : Engine) : Engine := { e with votes := [e.nodeId] }

/-- Send the same kind of call to all other members in parallel. -/
def callVoters (e : Engine) (call : Member → Call) : Engine :=
  e.voters.foldl (fun e peer => e.sendCall peer.raftAddress (call peer)) e

def requestVotes (e : Engine) (transfer : Bool) : Engine :=
  let request := e.voteRequest e.node.currentTerm false transfer
  e.callVoters fun peer => .requestVote peer.nodeId request

/-- One replicator per follower, which doubles as the heartbeat. -/
def restartReplicators (e : Engine) : Engine :=
  { e with replicators := Dict.empty }.startReplicators

end Engine

/-- We won the election: commit a no-op of our own term and start one
replicator for each follower. -/
def becomeLeader : EngineM Unit := do
  modify takeOffice
  let e ← get
  appendLocal [{ term := e.node.currentTerm, index := e.termStartIndex,
                 command := .noop, username := "" }]
  modify advanceCommitIndex
  modify restartReplicators

/-- Step down to follower: a higher term, a valid leader, or no majority.
The vote is cleared only when the term changes. -/
def becomeFollower (term : Nat) : EngineM Unit := do
  let e ← get
  if e.node.currentTerm < term then
    modify (·.enterTerm term)
    persistTermAndVote
  modify stepDown

/-- The real election. Votes are counted as they arrive. -/
def becomeCandidate (transfer : Bool) : EngineM Unit := do
  modify standForElection
  persistTermAndVote
  modify openBallot
  let e ← get
  if e.majority ≤ e.countVotes e.votes then
    becomeLeader
  else
    modify resetElectionTimer
    modify (·.requestVotes transfer)

/-- A valid AppendEntries or InstallSnapshot arrived. -/
def acceptLeader (term : Nat) (leaderId : NodeId) (address : String) : EngineM Unit := do
  let e ← get
  if e.node.currentTerm < term ∨ e.node.state ≠ .follower then
    becomeFollower term
  else
    modify resetElectionTimer
  modify (·.followLeader leaderId address)

/-! ## Starting -/

namespace Engine

/-- A process that is about to run the constructor. Only the storage outlives
the previous one. -/
def blank (e : Engine) : Engine where
  settings := e.settings
  storage := e.storage
  faults := e.faults
  clock := e.clock
  epoch := e.epoch + 1

/-- Everything up to `lastApplied` is in the state machine already; later
entries are applied again once they are known to be committed. -/
def reload (e : Engine) : Engine :=
  let saved := e.storage.load
  let applied := max saved.lastApplied saved.snapshotIndex
  { e with
    node :=
      { e.node with
        currentTerm := saved.currentTerm
        votedFor := saved.votedFor
        snapshotIndex := saved.snapshotIndex
        snapshotTerm := saved.snapshotTerm
        snapshotConfig := saved.snapshotConfig
        log := saved.log
        commitIndex := applied
        lastApplied := applied } }

def useBootstrap (e : Engine) : Engine :=
  { e with node := { e.node with snapshotConfig := some e.settings.bootstrap } }

def markUp (e : Engine) : Engine := { e with down := false }

end Engine

/-- Reload term, vote, log, snapshot boundary and membership. On the first
start the bootstrap membership is stored, so that it cannot change later. -/
def restorePersistentState : EngineM Unit := do
  modify reload
  let e ← get
  if e.node.snapshotConfig = none then
    modify useBootstrap
    storageCall .saveSnapshot fun s => s.saveSnapshot e.node.snapshotIndex e.node.snapshotTerm
      e.node.lastApplied (some e.settings.bootstrap)
  modify refreshConfig

/-- The constructor. If it raises there is no engine: the node stays down. -/
def construct : EngineM Unit := do
  modify blank
  restorePersistentState
  modify markUp

end KvCache
