import Mathlib.Logic.Function.Basic
import KvCache.EngineThreads

/-!
# A cluster with fixed membership

Several engines and the packets between them. One event is one section of
one node: an action of its own, or the arrival of a packet that was ever
sent. Packets stay on the wire for good, so a packet may be lost (never
delivered), late, overtaken by others, or delivered twice; a call still
arrives when its sender has crashed, a reply only if the process that made
the call is alive.

`applied` records every entry an applier handed to its state machine, with
the node that did so; nothing reads it.
-/

namespace KvCache

/-- The members every node is configured with: no id and no address twice. -/
structure Cluster where
  members : List Member
  tuning : NodeId → Tuning
  ids_nodup : (members.map (·.nodeId)).Nodup
  addresses_nodup : (members.map (·.raftAddress)).Nodup

namespace Cluster

def ids (c : Cluster) : List NodeId := c.members.map (·.nodeId)

/-- The address the node listens at. -/
def address (c : Cluster) (i : NodeId) : String :=
  match c.members.find? (·.nodeId = i) with
  | some m => m.raftAddress
  | none => ""

def settings (c : Cluster) (i : NodeId) : Settings where
  toTuning := c.tuning i
  nodeId := i
  raftAddress := c.address i
  bootstrap := c.members

end Cluster

/-- The engines, all packets ever sent, and what was handed to the state
machines: node, index and entry. -/
structure World where
  engines : NodeId → Engine
  net : List Packet
  applied : List (NodeId × Nat × LogEntry)

inductive WorldEvent where
  | act (i : NodeId) (action : Action)
  /-- the `k`-th packet reaches node `i` -/
  | deliver (i : NodeId) (k : Nat)

/-- Whether the network brings the packet to this engine. -/
def Packet.reaches (p : Packet) (e : Engine) : Bool :=
  match p with
  | .call env => env.address = e.settings.raftAddress
  | .reply env _ => env.src = e.nodeId

/-- The entry a section handed to the applier, if any. -/
def Engine.handed (e e' : Engine) : List (Nat × LogEntry) :=
  match e.applyLock, e'.applyLock with
  | .free, .applying index entry => [(index, entry)]
  | _, _ => []

namespace World

/-- Every node has just run its constructor for the first time. -/
def init (c : Cluster) : World where
  engines i := Engine.boot (c.settings i) fun _ => []
  net := []
  applied := []

/-- One section of node `i`; what it sends goes on the wire. -/
def act (w : World) (i : NodeId) (ev : NodeEvent) : World :=
  let e := w.engines i
  let e' := e.step ev
  { engines := Function.update w.engines i { e' with outbox := [] }
    net := w.net ++ e'.outbox
    applied := w.applied ++ (e.handed e').map fun p => (i, p) }

def step (c : Cluster) (w : World) : WorldEvent → World
  | .act i action => if i ∈ c.ids then w.act i (.act action) else w
  | .deliver i k =>
    match w.net[k]? with
    | some p =>
      if i ∈ c.ids ∧ p.reaches (w.engines i) then w.act i (.receive p) else w
    | none => w

/-- A run: one event after another. -/
def run (c : Cluster) (w : World) (evs : List WorldEvent) : World := evs.foldl (step c) w

end World

/-- The action starts no membership change. -/
def Action.FixedMembership : Action → Prop
  | .changeMembership _ _ => False
  | _ => True

/-- No membership change is started by the event. -/
def WorldEvent.FixedMembership : WorldEvent → Prop
  | .act _ action => action.FixedMembership
  | .deliver _ _ => True

end KvCache
