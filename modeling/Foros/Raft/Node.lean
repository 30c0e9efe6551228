import Foros.Raft.ContextStore

/-!
# A node

The state of one process: `raft::Context` with its store, its peers and its pending commit, the
raft and lifecycle state machines, and the effects of the callback it is running. What lies
outside the source is an `Env`: which `Put`s succeed, and what the user's callbacks do to the
node when they are invoked. `Env.plain` is the environment in which every `Put` succeeds and the
user's callbacks leave the node alone.
-/

namespace Foros

/-- `OtherNode`: a peer and the replication indices kept for it. -/
structure OtherNode where
  nodeId : Nat
  nextIndex : Nat
  matchIndex : Nat
  deriving DecidableEq, Repr

/-- `PendingCommit`; `log_` is never null, and `result_map_` is a partial map from peers. -/
structure PendingCommit where
  log : LogEntry
  promise : Nat
  resultMap : Nat → Option Bool

structure Node where
  nodeId : Nat
  clusterSize : Nat
  majority : Nat
  store : ContextStore
  /-- `other_nodes_` in the order of the map's keys. -/
  otherNodes : List OtherNode
  pendingCommit : Option PendingCommit
  broadcastReceived : Bool
  electionTimer : Bool
  broadcastTimer : Bool
  /-- `current_state_` of the raft state machine. -/
  state : StateType
  /-- `current_state_` of the lifecycle state machine. -/
  lifecycle : LifecycleState
  /-- The number of promises made. -/
  promises : Nat
  /-- The effects of the latest callback, oldest first. -/
  trace : List Effect

structure Env where
  /-- Whether the `n`-th `Put` succeeds. -/
  putOk : Nat → Bool
  onCommitted : Nat → Option Command → Node → Node
  onReverted : Nat → Node → Node
  /-- The callback passed to `commit_command`. -/
  onResponse : CommandCommitResponse → Node → Node
  onLifecycle : LifecycleState → Node → Node

def Env.plain : Env where
  putOk _ := true
  onCommitted _ _ n := n
  onReverted _ n := n
  onResponse _ n := n
  onLifecycle _ n := n

/-- The environment in which `Put`s may fail and the user's callbacks leave the node alone. -/
def Env.faulty (putOk : Nat → Bool) : Env := { Env.plain with putOk := putOk }

namespace Node

variable (env : Env)

def emit (e : Effect) (n : Node) : Node := { n with trace := n.trace ++ [e] }

/-- A method of `store_`; the `Put`s it executes become effects of the node. -/
def onStore {α : Type} (f : ContextStore → α × ContextStore) (n : Node) : α × Node :=
  let r := f { n.store with journal := [] }
  (r.1, { n with
    store := { r.2 with journal := [] }
    trace := n.trace ++ r.2.journal.map fun p => .put p.1 p.2 })

/-! ## Timers -/

def startElectionTimer (n : Node) : Node := { n with electionTimer := true }

def stopElectionTimer (n : Node) : Node := { n with electionTimer := false }

def resetElectionTimer (n : Node) : Node := n.stopElectionTimer.startElectionTimer

def startBroadcastTimer (n : Node) : Node := { n with broadcastTimer := true }

def stopBroadcastTimer (n : Node) : Node := { n with broadcastTimer := false }

/-! ## Votes -/

def voteForMe (n : Node) : Node :=
  let n := (n.onStore (·.setVotedFor env.putOk n.nodeId)).2
  let n := (n.onStore (·.setVoted env.putOk true)).2
  { n with store := n.store.increaseVoteReceived }

/-- `vote`: the last data term of the request is not looked at. -/
def vote (term id lastDataIndex _lastDataTerm : Nat) (n : Node) : RequestVoteResponse × Node :=
  let log := n.store.lastLog
  let currentTerm := n.store.currentTerm
  if term ≥ currentTerm ∧ n.store.voted = false ∧ log.all (·.id ≤ lastDataIndex) then
    let n := (n.onStore (·.setVotedFor env.putOk id)).2
    let n := (n.onStore (·.setVoted env.putOk true)).2
    (⟨currentTerm, true⟩, n)
  else (⟨currentTerm, false⟩, n)

def resetVote (n : Node) : Node :=
  let n := (n.onStore (·.setVotedFor env.putOk 0)).2
  let n := { n with store := n.store.resetVoteReceived }
  (n.onStore (·.setVoted env.putOk false)).2

/-! ## User callbacks -/

def invokeCommitCallback (log : LogEntry) (n : Node) : Node :=
  env.onCommitted log.id log.command (n.emit (.committed log.id log.command))

def invokeRevertCallback (id : Nat) (n : Node) : Node :=
  env.onReverted id (n.emit (.reverted id))

/-- `promise->set_value(response)`, then the callback of `commit_command`. -/
def resolve (promise : Nat) (response : CommandCommitResponse) (n : Node) : Node :=
  env.onResponse response (n.emit (.resolved promise response))

/-! ## Pending commits -/

/-- `complete_commit`: the result of `push_log` is not looked at. -/
def completeCommit (promise : Nat) (log : LogEntry) (result : Bool) (n : Node) : Node :=
  let n := if result then
      invokeCommitCallback env log (n.onStore (·.pushLog env.putOk (some log))).2
    else n
  resolve env promise ⟨log.id, log.command, result⟩ n

def cancelCommit (promise id : Nat) (n : Node) : Node :=
  resolve env promise ⟨id, none, false⟩ n

/-- `get_pending_commit`: a commit whose id is no longer the log's size is dropped. -/
def getPendingCommit (n : Node) : Option PendingCommit × Node :=
  match n.pendingCommit with
  | none => (none, n)
  | some commit =>
    if commit.log.id ≠ n.store.logsSize then (none, { n with pendingCommit := none })
    else (some commit, n)

def setPendingCommit (commit : PendingCommit) (n : Node) : Bool × Node :=
  if commit.log.id ≠ n.store.logsSize then (false, n)
  else if n.pendingCommit.any (·.log.id = n.store.logsSize) then (false, n)
  else (true, { n with pendingCommit := some commit })

/-- `cancel_pending_commit` with `clear_pending_commit`. -/
def cancelPendingCommit (n : Node) : Node :=
  match n.pendingCommit with
  | none => n
  | some commit =>
    completeCommit env commit.promise commit.log false { n with pendingCommit := none }

/-! ## The state machines -/

/-- The lifecycle `StateMachine::handle`; the user's lifecycle callback is notified. -/
def handleLifecycle (event : LifecycleEvent) (n : Node) : Node :=
  match lifecycleMap n.lifecycle event with
  | none => n
  | some next => env.onLifecycle next ({ n with lifecycle := next }.emit (.lifecycle next))

/-- `is_activated`. -/
def isActivated (n : Node) : Bool := n.lifecycle = .active

def isLeader (n : Node) : Bool := n.state = .leader

/-- The states' `exit`. -/
def exitState (state : StateType) (n : Node) : Node :=
  match state with
  | .leader => cancelPendingCommit env n.stopBroadcastTimer
  | _ => n

/-- The states' `entry`; a `Candidate` starts an election. -/
def entryState (startElection : Node → Node) (state : StateType) (n : Node) : Node :=
  match state with
  | .standby => n.stopElectionTimer
  | .follower => n.startElectionTimer
  | .candidate => startElection n
  | .leader => n.startBroadcastTimer

/-- The states' `callback_map_`: the two callbacks that do something. -/
def onEvent (startElection broadcast : Node → Node) (state : StateType) (event : Event)
    (n : Node) : Node :=
  match state, event with
  | .candidate, .timedout => startElection n
  | .leader, .broadcastTimedout => broadcast n
  | _, _ => n

/-- `common::StateMachine::handle` over the raft states. The state whose `exit` runs is the one
current after the callback, and it stays current until `exit` has returned. -/
def handleWith (startElection broadcast : Node → Node) (event : Event) (n : Node) : Node :=
  match transitionMap n.state event with
  | none => n
  | some next =>
    let n := onEvent startElection broadcast n.state event n
    match next with
    | none => n
    | some next =>
      let n := exitState env n.state n
      let n := { n with state := next }
      let n := handleLifecycle env (lifecycleEvent n.state) n
      entryState startElection n.state n

/-- The events raised inside a callback. None of them starts an election or broadcasts
(`handle_eq_raise`), so `handle` can be defined after the code that raises them. -/
def raise (event : Event) (n : Node) : Node :=
  handleWith env (fun n => n) (fun n => n) event n

end Node

end Foros
