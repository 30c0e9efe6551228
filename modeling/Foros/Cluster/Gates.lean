import Foros.Cluster.System
import Foros.Lib.Record
import Foros.Raft.Life

/-!
# Publishers and services of cluster nodes

The publishers and services a node makes let through what they are given while the node is active,
and drop it otherwise (`cluster_node_publisher.hpp`, `cluster_node_service.hpp`). Users publish at
any moment, also in the callbacks that a node invokes; services are called between the callbacks of
a node. What gets through is kept with the node it was at and the term of the leadership that let it
through.
-/

namespace Foros

/-- What a publisher or a service lets through. The node is that of its lifecycle interface, which
is null when a `ClusterNode` has not made it. -/
def gate {α : Type} (node : Option Node) (x : α) : Option α :=
  match node with
  | none => some x
  | some n => if n.isActivated = false then none else some x

/-- `ClusterNodePublisher::publish`: the message that reaches `rclcpp::Publisher::publish`. -/
def publish (node : Option Node) (msg : Bytes) : Option Bytes := gate node msg

/-- `ClusterNodeService::handle_request`: the request that reaches
`rclcpp::Service::handle_request`. -/
def handleRequest (node : Option Node) (request : Bytes) : Option Bytes := gate node request

/-- Whether an effect is a callback of the user. -/
def Effect.isUserCallback : Effect → Bool
  | .committed _ _ | .reverted _ | .resolved _ _ | .lifecycle _ => true
  | _ => false

/-- The lifecycle state after `k` effects of the latest callback, which found it to be `before`: the
lifecycle machine is in its new state when it notifies the user. -/
def Node.lifecycleAfter (before : LifecycleState) (k : Nat) (n : Node) : LifecycleState :=
  ((n.trace.take k).filterMap Effect.toldState).getLast?.getD before

/-- Something that node `node`, leader of the term `term`, let through. -/
structure Passed where
  node : Nat
  term : Nat
  body : Bytes
  deriving DecidableEq, Repr

/-- What passes when a user of node `i` publishes `msg` in effect `k` of a callback that finds the
node as `n` and leaves it as `n'`. An active `n` has led its term until then, also where the
callback has stored a later one. -/
def passedIn (i : Nat) (n n' : Node) (k : Nat) (msg : Bytes) : Option Passed :=
  if (n'.trace[k]?).any Effect.isUserCallback then
    let lifecycle := n'.lifecycleAfter n.lifecycle (k + 1)
    let term := if n.isActivated then n.store.currentTerm else n'.store.currentTerm
    (publish (some { n' with lifecycle := lifecycle }) msg).map (⟨i, term, ·⟩)
  else none

/-- A cluster, and what the gates of its nodes have let through, newest first. -/
structure Gates where
  cluster : Cluster
  passed : List Passed

inductive GateAction
  /-- A step of the cluster; in effect `k` of its callback, for `(k, msg)` in `said`, the user
  publishes `msg`. -/
  | cluster (a : Action) (said : List (Nat × Bytes))
  | publish (i : Nat) (msg : Bytes)
  | request (i : Nat) (request : Bytes)
  deriving DecidableEq, Repr

/-- The step of the cluster, if it is one. -/
def GateAction.action : GateAction → Option Action
  | .cluster a _ => some a
  | _ => none

namespace Gates

variable (cfg : Config)

/-- What the user's callbacks publish in the step `a` from `s` to `s'`, newest first. -/
def passedDuring (s s' : Cluster) (a : Action) (said : List (Nat × Bytes)) : List Passed :=
  match s.handled a with
  | none => []
  | some (i, _) => (said.filterMap fun p => passedIn i (s.nodes i) (s'.nodes i) p.1 p.2).reverse

/-- What a gate of node `i` lets through is kept. -/
def pass (i : Nat) (body : Option Bytes) (g : Gates) : Gates :=
  match body with
  | none => g
  | some body =>
    { g with passed := ⟨i, (g.cluster.nodes i).store.currentTerm, body⟩ :: g.passed }

def step (g : Gates) : GateAction → Option Gates
  | .cluster a said => (Cluster.step cfg g.cluster a).map fun s =>
    ⟨s, passedDuring g.cluster s a said ++ g.passed⟩
  | .publish i msg =>
    if i ∈ cfg.ids then some (g.pass i (publish (some (g.cluster.nodes i)) msg)) else none
  | .request i request =>
    if i ∈ cfg.ids then
      some (g.pass i (handleRequest (some (g.cluster.nodes i)) request))
    else none

def system : Lib.System Gates GateAction where
  init := ⟨Cluster.init cfg, []⟩
  step := step cfg

end Gates

/-- A run of a cluster and its gates, with its actions. -/
abbrev GateRun (cfg : Config) (h : List (Gates × List GateAction)) : Prop :=
  (Gates.system cfg).record.Run (fun _ _ => True) h

end Foros
