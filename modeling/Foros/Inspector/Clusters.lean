import Foros.Lib.Run
import Mathlib.Data.List.Basic

/-!
# The inspector (`foros_inspector/src/inspector.cpp`)

The inspector hears the reports of nodes on a topic and keeps, for each cluster, the nodes that
have reported lately and a summary of them. Times are nanoseconds; a callback reads the clock once.
`limit` is one and a half periods. The source's maps are maps in the order of their keys
(`clusters_` has no order of its own, and none matters: the clusters are handled one by one). What
is drawn on the screen, and the width of its columns, is left out.

`Inspector.Watch` is an inspector at work: its clock does not go back, and it remembers the latest
report it has accepted from each node.
-/

namespace Foros

/-- `foros_msgs::msg::Inspector`. -/
structure InspectorMsg where
  stamp : Nat
  clusterName : String
  clusterSize : Nat
  id : Nat
  state : UInt8
  term : Nat
  dataSize : Nat
  votedFor : Nat
  deriving DecidableEq, Repr

/-- The `LEADER` of the message's states. -/
def InspectorMsg.leader : UInt8 := 4

structure NodeInfo where
  id : Nat
  size : Nat
  state : UInt8
  term : Nat
  dataSize : Nat
  votedFor : Nat
  lastUpdated : Nat
  deriving DecidableEq, Repr

/-- `NodeInfo::NodeInfo`. -/
def NodeInfo.new (id : Nat) : NodeInfo := ⟨id, 0, 0, 0, 0, 0, 0⟩

structure ClusterInfo where
  name : String
  size : Nat
  term : Nat
  leader : Nat
  leaderExist : Bool
  sizeMismatched : Bool
  nodes : Std.TreeMap Nat NodeInfo
  lastUpdated : Nat

/-- `ClusterInfo::ClusterInfo`. -/
def ClusterInfo.new (name : String) : ClusterInfo := ⟨name, 0, 0, 0, false, false, ∅, 0⟩

/-- The assignments of `inspector_message_received` to the node of a message. -/
def NodeInfo.report (msg : InspectorMsg) (node : NodeInfo) : NodeInfo :=
  { node with
    size := msg.clusterSize
    term := msg.term
    state := msg.state
    dataSize := msg.dataSize
    votedFor := msg.votedFor
    lastUpdated := msg.stamp }

/-- The update of the cluster's summary in `inspector_message_received`. -/
def ClusterInfo.summarize (node : NodeInfo) (cluster : ClusterInfo) : ClusterInfo :=
  let cluster :=
    if cluster.lastUpdated < node.lastUpdated then { cluster with lastUpdated := node.lastUpdated }
    else cluster
  if cluster.term ≤ node.term then
    let cluster := { cluster with term := node.term }
    if node.state = InspectorMsg.leader then
      { cluster with leader := node.id, leaderExist := true }
    else cluster
  else cluster

structure Inspector where
  clusters : Std.TreeMap String ClusterInfo

namespace Inspector

variable (limit now : Nat)

/-- The difference of two times is signed: a time that is still to come is not outdated. -/
def isOutdated (time : Nat) : Bool := ¬ now < time + limit

/-- The entry of a cluster; an outdated one is replaced by a new one. -/
def getClusterInfo (name : String) (s : Inspector) : ClusterInfo × Inspector :=
  match s.clusters[name]? with
  | none => (.new name, { s with clusters := s.clusters.insert name (.new name) })
  | some cluster =>
    if isOutdated limit now cluster.lastUpdated then
      (.new name, { s with clusters := s.clusters.insert name (.new name) })
    else (cluster, s)

def getNodeInfo (cluster : ClusterInfo) (id : Nat) : NodeInfo × ClusterInfo :=
  match cluster.nodes[id]? with
  | none => (.new id, { cluster with nodes := cluster.nodes.insert id (.new id) })
  | some node => (node, cluster)

/-! ## The pass over the clusters -/

/-- One iteration of the loop over `nodes_`, with the local `size`. -/
def updateNodeInfo (acc : ClusterInfo × Nat) (entry : Nat × NodeInfo) : ClusterInfo × Nat :=
  let (cluster, size) := acc
  let (id, node) := entry
  if isOutdated limit now node.lastUpdated then
    let cluster :=
      if cluster.leader = node.id then { cluster with leaderExist := false } else cluster
    ({ cluster with nodes := cluster.nodes.erase id }, size)
  else
    let cluster :=
      if size ≠ 0 ∧ cluster.size ≠ node.size then { cluster with sizeMismatched := true }
      else cluster
    (cluster, node.size)

/-- One iteration of the loop over `clusters_`; `none` is a cluster that is erased. -/
def updateCluster (cluster : ClusterInfo) : Option ClusterInfo :=
  let cluster := { cluster with sizeMismatched := false }
  if isOutdated limit now cluster.lastUpdated then none
  else
    let (cluster, size) := cluster.nodes.toList.foldl (updateNodeInfo limit now) (cluster, 0)
    some { cluster with size := size }

def updateClusterInfo (s : Inspector) : Inspector :=
  ⟨s.clusters.filterMap fun _ cluster => updateCluster limit now cluster⟩

/-! ## Messages -/

/-- `inspector_message_received` up to the update of the screen; whether the message is accepted.
The cluster and the node are shared with the maps, which show every change to them. -/
def storeMessage (msg : InspectorMsg) (s : Inspector) : Bool × Inspector :=
  if isOutdated limit now msg.stamp then (false, s)
  else
    let (cluster, s) := getClusterInfo limit now msg.clusterName s
    let (node, cluster) := getNodeInfo cluster msg.id
    if node.lastUpdated > msg.stamp then
      (false, { s with clusters := s.clusters.insert msg.clusterName cluster })
    else
      let node := node.report msg
      let cluster := { cluster with nodes := cluster.nodes.insert msg.id node }
      let cluster := cluster.summarize node
      (true, { s with clusters := s.clusters.insert msg.clusterName cluster })

/-- `inspector_message_received`; `update_screen` begins with `update_cluster_info`. -/
def inspectorMessageReceived (msg : InspectorMsg) (s : Inspector) : Inspector :=
  let (accepted, s) := storeMessage limit now msg s
  if accepted then updateClusterInfo limit now s else s

end Inspector

/-! ## An inspector at work -/

/-- What can happen to an inspector at a time of its clock: a message, or the refresh timer. -/
inductive InspectorEvent
  | message (now : Nat) (msg : InspectorMsg)
  | refresh (now : Nat)
  deriving DecidableEq, Repr

def InspectorEvent.now : InspectorEvent → Nat
  | .message now _ => now
  | .refresh now => now

structure Inspector.Watch where
  clock : Nat
  inspector : Inspector
  /-- The latest report accepted from each node of each cluster. -/
  reports : String → Nat → Option InspectorMsg

namespace Inspector.Watch

variable (limit : Nat)

/-- The inspector whose clusters an event has `update_cluster_info` go through. -/
def passes (w : Watch) : InspectorEvent → Option Inspector
  | .refresh _ => some w.inspector
  | .message now msg =>
    let (accepted, s) := storeMessage limit now msg w.inspector
    if accepted then some s else none

def step (w : Watch) (event : InspectorEvent) : Option Watch :=
  if event.now < w.clock then none
  else
    match event with
    | .refresh now => some { w with
        clock := now
        inspector := updateClusterInfo limit now w.inspector }
    | .message now msg => some {
        clock := now
        inspector := inspectorMessageReceived limit now msg w.inspector
        reports :=
          if (storeMessage limit now msg w.inspector).1 then
            Function.update w.reports msg.clusterName
              (Function.update (w.reports msg.clusterName) msg.id (some msg))
          else w.reports }

/-- An inspector that starts at time 0. -/
def system : Lib.System Watch InspectorEvent where
  init := ⟨0, ⟨∅⟩, fun _ _ => none⟩
  step := step limit

end Inspector.Watch

end Foros
