import Mathlib.Data.List.Sort
import KvCache.Dict

/-!
# The data of one Raft node

`raft/types.py` and `raft/rpc.py`: log entries, members, the node state
with its log queries, and the messages nodes exchange.

A log command is kept parsed: the engine only asks whether it is the no-op
or a CONFIG entry, and hands every other text to the state machine. Terms
and indexes are natural numbers. Python slices with a negative bound count
from the end of the list; `sliceBound` keeps that, so that `truncateFrom`
and `entriesFrom` are the source's functions for every index.
-/

namespace KvCache

abbrev NodeId := String

inductive RaftState where
  | follower
  | candidate
  | leader
deriving DecidableEq

/-- One voting member of the cluster and where to reach it. -/
structure Member where
  nodeId : NodeId
  raftAddress : String
  clientAddress : String := ""
deriving DecidableEq

/-- What a log entry says: NOOP, CONFIG with its members, or a write for the
state machine. -/
inductive Command where
  | noop
  | config (members : List Member)
  | write (text : String)
deriving DecidableEq

/-- The command that makes `members` the new membership, ordered by node id. -/
def configCommand (members : List Member) : Command :=
  .config (members.insertionSort fun a b => a.nodeId ≤ b.nodeId)

/-- The members of a CONFIG command. -/
def parseConfig : Command → Option (List Member)
  | .config ms => some ms
  | _ => none

structure LogEntry where
  term : Nat
  index : Nat
  command : Command
  username : String
  requestId : String := ""
deriving DecidableEq

/-- The position a Python slice bound denotes in a list of this length. -/
def sliceBound (len : Nat) (i : Int) : Nat :=
  if 0 ≤ i then min i.toNat len else len - i.natAbs

theorem take_sliceBound {α : Type} (l : List α) (k : Nat) :
    l.take (sliceBound l.length k) = l.take k := by
  rcases Nat.le_total k l.length with h | h
  · simp [sliceBound, h]
  · simp [sliceBound, h, List.take_of_length_le h]

theorem drop_sliceBound {α : Type} (l : List α) (k : Nat) :
    l.drop (sliceBound l.length k) = l.drop k := by
  rcases Nat.le_total k l.length with h | h
  · simp [sliceBound, h]
  · simp [sliceBound, h, List.drop_of_length_le h]

/-- What applying an entry gives: nothing, a flag or a count. -/
inductive Result where
  | none
  | bool (b : Bool)
  | int (n : Int)
deriving DecidableEq

/-- Complete state of one Raft node. -/
structure RaftNode where
  currentTerm : Nat := 0
  votedFor : Option NodeId := none
  /-- only the entries after the snapshot -/
  log : List LogEntry := []
  state : RaftState := .follower
  commitIndex : Nat := 0
  lastApplied : Nat := 0
  nextIndex : Dict NodeId Nat := Dict.empty
  matchIndex : Dict NodeId Nat := Dict.empty
  leaderId : Option NodeId := none
  snapshotIndex : Nat := 0
  snapshotTerm : Nat := 0
  snapshotConfig : Option (List Member) := none

namespace RaftNode

/-- Index of the last entry in our log. -/
def lastLogIndex (n : RaftNode) : Nat := n.snapshotIndex + n.log.length

def lastLogTerm (n : RaftNode) : Nat :=
  match n.log.getLast? with
  | some e => e.term
  | none => n.snapshotTerm

/-- Term of the entry at `index`; none when it is past the end of the log or
compacted away. -/
def termAt (n : RaftNode) (index : Nat) : Option Nat :=
  if index = n.snapshotIndex then some n.snapshotTerm
  else if index < n.snapshotIndex ∨ n.lastLogIndex < index then none
  else (n.log[index - n.snapshotIndex - 1]?).map (·.term)

def entryAt (n : RaftNode) (index : Nat) : Option LogEntry :=
  if index ≤ n.snapshotIndex ∨ n.lastLogIndex < index then none
  else n.log[index - n.snapshotIndex - 1]?

/-- Up to `limit` entries starting at `index`. -/
def entriesFrom (n : RaftNode) (index limit : Nat) : List LogEntry :=
  let start : Int := (index : Int) - n.snapshotIndex - 1
  (n.log.take (sliceBound n.log.length (start + limit))).drop (sliceBound n.log.length start)

/-- Delete the entry at `index` and everything after it. -/
def truncateFrom (n : RaftNode) (index : Nat) : RaftNode :=
  { n with log := n.log.take (sliceBound n.log.length ((index : Int) - n.snapshotIndex - 1)) }

/-- Index and members of the newest membership in the log, else the
snapshot's. -/
def latestConfig (n : RaftNode) : Nat × Option (List Member) :=
  match n.log.reverse.findSome? fun e => (parseConfig e.command).map (e.index, ·) with
  | some (index, ms) => (index, some ms)
  | none => (n.snapshotIndex, n.snapshotConfig)

/-- The membership in effect at `index`. -/
def configAt (n : RaftNode) (index : Nat) : Option (List Member) :=
  (n.log.reverse.findSome? fun e => if e.index ≤ index then parseConfig e.command else none).or
    n.snapshotConfig

/-- Fold the entries up to `index` into the snapshot. If our entry there has
the same term the entries after it stay, otherwise the log is thrown away. -/
def compactThrough (n : RaftNode) (index term : Nat) (config : Option (List Member)) : RaftNode :=
  { n with
    log := if n.termAt index = some term then
        n.log.drop (sliceBound n.log.length ((index : Int) - n.snapshotIndex)) else []
    snapshotIndex := index
    snapshotTerm := term
    snapshotConfig := config.or (n.configAt index) }

end RaftNode

/-! ## Messages -/

structure RequestVoteRequest where
  term : Nat
  candidateId : NodeId
  lastLogIndex : Nat
  lastLogTerm : Nat
  preVote : Bool := false
  transfer : Bool := false
deriving DecidableEq

structure RequestVoteResponse where
  term : Nat
  voteGranted : Bool
deriving DecidableEq

/-- `prevLogTerm` is the leader's `termAt prevLogIndex`, hence optional. -/
structure AppendEntriesRequest where
  term : Nat
  leaderId : NodeId
  prevLogIndex : Nat
  prevLogTerm : Option Nat
  entries : List LogEntry
  leaderCommit : Nat
  leaderAddress : String := ""
deriving DecidableEq

structure AppendEntriesResponse where
  term : Nat
  success : Bool
  matchIndex : Nat := 0
  conflictIndex : Nat := 0
deriving DecidableEq

/-- One chunk of a snapshot file. `data` is the chunk itself; the base64 text
it travels as is decoded to the same bytes. -/
structure InstallSnapshotRequest where
  term : Nat
  leaderId : NodeId
  lastIncludedIndex : Nat
  lastIncludedTerm : Nat
  offset : Nat
  data : List UInt8
  done : Bool
  config : Option (List Member) := none
  leaderAddress : String := ""
deriving DecidableEq

structure InstallSnapshotResponse where
  term : Nat
  success : Bool := true
deriving DecidableEq

structure ReadIndexRequest where
  term : Nat
  nodeId : NodeId
deriving DecidableEq

structure ReadIndexResponse where
  term : Nat
  success : Bool
  index : Nat := 0
deriving DecidableEq

structure TimeoutNowRequest where
  term : Nat
  leaderId : NodeId
deriving DecidableEq

structure TimeoutNowResponse where
  term : Nat
deriving DecidableEq

end KvCache
