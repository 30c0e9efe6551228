import Foros.Cluster.System
import Foros.Inspector.Clusters

/-!
# Clusters under an inspector

The nodes of a cluster publish reports about themselves on a topic (`raft/inspector.cpp`), and an
inspector hears what is not lost of them, in any order and however late. The name of a cluster
stands for its configuration. Every host has a clock of its own, so the stamp of a report is any
time, and the periods of the timers are left out: a node may report at any moment.
-/

namespace Foros

/-- The states of `foros_msgs::msg::Inspector`. -/
def StateType.inspectorState : StateType → UInt8
  | .standby => 1
  | .follower => 2
  | .candidate => 3
  | .leader => InspectorMsg.leader

/-- `Context::inspector_message_requested` of a node of the cluster `clusterName`, at the time
`stamp` of its clock. -/
def Node.inspectorMessageRequested (clusterName : String) (stamp : Nat) (n : Node) :
    InspectorMsg where
  stamp := stamp
  clusterName := clusterName
  clusterSize := n.clusterSize
  id := n.nodeId
  state := n.state.inspectorState
  term := n.store.currentTerm
  dataSize := n.store.logsSize
  votedFor := n.store.votedFor

structure Monitor where
  /-- The clusters under their names. -/
  clusters : String → Cluster
  /-- The reports on their way to the inspector. -/
  topic : List InspectorMsg
  watch : Inspector.Watch

inductive MonitorAction
  | cluster (name : String) (a : Action)
  | publish (name : String) (i stamp : Nat)
  /-- The inspector hears the `k`-th report at the time `now` of its clock. -/
  | deliver (k now : Nat)
  | lose (k : Nat)
  | refresh (now : Nat)
  deriving DecidableEq, Repr

namespace Monitor

variable (cfg : String → Config) (limit : Nat)

def step (m : Monitor) : MonitorAction → Option Monitor
  | .cluster name a => (Cluster.step (cfg name) (m.clusters name) a).map fun s =>
    { m with clusters := Function.update m.clusters name s }
  | .publish name i stamp =>
    if i ∈ (cfg name).ids then
      some { m with
        topic := m.topic ++ [((m.clusters name).nodes i).inspectorMessageRequested name stamp] }
    else none
  | .deliver k now =>
    match m.topic[k]? with
    | none => none
    | some msg => (m.watch.step limit (.message now msg)).map fun w =>
      { m with topic := m.topic.eraseIdx k, watch := w }
  | .lose k => if k < m.topic.length then some { m with topic := m.topic.eraseIdx k } else none
  | .refresh now => (m.watch.step limit (.refresh now)).map fun w => { m with watch := w }

def system : Lib.System Monitor MonitorAction where
  init := ⟨fun name => Cluster.init (cfg name), [], (Inspector.Watch.system limit).init⟩
  step := step cfg limit

end Monitor

/-- A run of clusters under an inspector, newest state first. -/
abbrev MonitorRun (cfg : String → Config) (limit : Nat) (h : List Monitor) : Prop :=
  (Monitor.system cfg limit).Run (fun _ _ => True) h

end Foros
