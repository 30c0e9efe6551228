import Foros.Raft.Node
import Mathlib.Data.List.Sort
import Mathlib.Data.List.Dedup

/-!
# The callbacks of a node (`raft/context.cpp`, `raft/other_node.cpp`, `raft/state/*.cpp`)

`Node.run env input n` is one top-level callback: a timer, a service request, the answer to a
request, or a call of `commit_command`. Functions that return a value and change the node return
both. A message to a peer whose service is not ready is not sent; in a network that loses
messages that is a message sent and lost.
-/

namespace Foros

namespace Node

variable (env : Env)

/-! ## Terms -/

def updateTerm (term : Nat) (self : Bool) (n : Node) : Bool × Node :=
  if term ≤ n.store.currentTerm then (false, n)
  else
    let n := (n.onStore (·.setCurrentTerm env.putOk term)).2
    let n := resetVote env n
    let n := if self = false then raise env .newTermReceived n else n
    (true, n)

/-- `increase_term`: the increment of a `uint64_t` wraps. -/
def increaseTerm (n : Node) : Node :=
  (updateTerm env ((n.store.currentTerm + 1) % 2 ^ 64) true n).2

/-! ## Elections -/

/-- `OtherNode::set_match_index`. -/
def setMatchIndex (matchIndex : Nat) (node : OtherNode) : OtherNode :=
  { node with matchIndex := matchIndex, nextIndex := matchIndex + 1 }

def checkElected (n : Node) : Node :=
  if n.store.voteReceived < n.majority then n
  else
    let id := (n.store.lastLog.map (·.id)).getD 0
    raise env .elected { n with otherNodes := n.otherNodes.map (setMatchIndex id) }

/-- The request of `OtherNode::request_vote`. -/
def voteRequest (n : Node) : RequestVoteRequest :=
  { term := n.store.currentTerm
    candidateId := n.nodeId
    lastDataIndex := (n.store.lastLog.map (·.id)).getD 0
    loatDataTerm := (n.store.lastLog.map (·.term)).getD 0 }

def requestVote (n : Node) : Node :=
  checkElected env
    (n.otherNodes.foldl (fun m node => m.emit (.sendRequestVote node.nodeId m.voteRequest)) n)

/-- `Candidate::start_election`. -/
def startElection (n : Node) : Node :=
  let n := increaseTerm env n
  let n := resetVote env n
  let n := voteForMe env n
  let n := n.resetElectionTimer
  requestVote env n

def onRequestVoteResponse (response : RequestVoteResponse) (n : Node) : Node :=
  if response.term < n.store.currentTerm then n
  else
    let (updated, n) := updateTerm env response.term false n
    if updated then n
    else if response.voteGranted = false then n
    else checkElected env { n with store := n.store.increaseVoteReceived }

def isValidNode (id : Nat) (n : Node) : Bool := n.otherNodes.any (·.nodeId = id)

/-- `on_request_vote_requested`; an invalid candidate is answered with a default message. -/
def onRequestVoteRequested (request : RequestVoteRequest) (n : Node) :
    RequestVoteResponse × Node :=
  if n.isValidNode request.candidateId = false then ({}, n)
  else
    let n := (updateTerm env request.term false n).2
    vote env request.term request.candidateId request.lastDataIndex request.loatDataTerm n

/-! ## Replication: the leader's side -/

def onLogGetRequest (id : Nat) (n : Node) : Option LogEntry × Node :=
  let (commit, n) := n.getPendingCommit
  match commit with
  | some commit => if commit.log.id = id then (some commit.log, n) else (n.store.log id, n)
  | none => (n.store.log id, n)

/-- The entry part of the request of `OtherNode::broadcast`: the entry at `next_index_`, when the
log reaches it. Its term overwrites the leader's. -/
def fillEntry (log : Option LogEntry) (nextIndex : Nat) (request : AppendEntriesRequest)
    (n : Node) : AppendEntriesRequest × Node :=
  if log.any (nextIndex ≤ ·.id) then
    let (entry, n) := n.onLogGetRequest nextIndex
    match entry with
    | some entry =>
      -- the data of a null command is undefined: no run broadcasts such an entry (`readsNull`)
      ({ request with
        entries := entry.command.getD []
        leaderCommit := entry.id
        term := entry.term }, n)
    | none => (request, n)
  else (request, n)

/-- The predecessor part of the request of `OtherNode::broadcast`. -/
def fillPrev (nextIndex : Nat) (request : AppendEntriesRequest) (n : Node) :
    AppendEntriesRequest × Node :=
  if nextIndex > 0 then
    let (entry, n) := n.onLogGetRequest (nextIndex - 1)
    match entry with
    | some entry => ({ request with prevLogIndex := entry.id, prevLogTerm := entry.term }, n)
    | none => (request, n)
  else (request, n)

/-- `OtherNode::broadcast`. -/
def broadcastTo (log : Option LogEntry) (node : OtherNode) (n : Node) : Node :=
  let request : AppendEntriesRequest := { term := n.store.currentTerm, leaderId := n.nodeId }
  let (request, n) := fillEntry log node.nextIndex request n
  let (request, n) := fillPrev node.nextIndex request n
  n.emit (.sendAppendEntries node.nodeId request)

def broadcast (n : Node) : Node :=
  let (pending, n) := n.getPendingCommit
  let log := match pending with
    | some commit => some commit.log
    | none => n.store.lastLog
  n.otherNodes.foldl (fun m node => broadcastTo log node m) n

/-- `success_count`: every peer whose recorded result equals the one just received counts. The
other counter of the source, `received_count`, is never read. -/
def successCount (otherNodes : List OtherNode) (resultMap : Nat → Option Bool)
    (success : Bool) : Nat :=
  1 + otherNodes.countP fun node => resultMap node.nodeId = some success

def handlePendingCommitResponse (id commitIndex term : Nat) (success : Bool) (n : Node) : Node :=
  match n.pendingCommit with
  | none => n
  | some commit =>
    if commit.log.id ≠ commitIndex ∨ commit.log.term ≠ term then n
    else
      let resultMap := Function.update commit.resultMap id (some success)
      if successCount n.otherNodes resultMap success < n.majority then
        { n with pendingCommit := some { commit with resultMap := resultMap } }
      else
        completeCommit env commit.promise commit.log true { n with pendingCommit := none }

def onBroadcastResponse (id commitIndex term : Nat) (success : Bool) (n : Node) : Node :=
  let n := if term ≥ n.store.currentTerm then (updateTerm env term false n).2 else n
  handlePendingCommitResponse env id commitIndex term success n

/-- The index update of `OtherNode::send_append_entries`'s callback. -/
def updateIndex (request : AppendEntriesRequest) (response : AppendEntriesResponse)
    (node : OtherNode) : OtherNode :=
  if response.success then
    { node with matchIndex := request.leaderCommit, nextIndex := request.leaderCommit + 1 }
  else if node.nextIndex > 0 then { node with nextIndex := node.nextIndex - 1 }
  else node

/-- The callback of `OtherNode::send_append_entries` for the peer `id`. -/
def onAppendEntriesResponse (id : Nat) (request : AppendEntriesRequest)
    (response : AppendEntriesResponse) (n : Node) : Node :=
  let otherNodes := n.otherNodes.map fun node =>
    if node.nodeId = id then updateIndex request response node else node
  onBroadcastResponse env id request.leaderCommit response.term response.success
    { n with otherNodes := otherNodes }

/-- `commit_command`; a promise is its number. -/
def commitCommand (command : Option Command) (n : Node) : Node :=
  let promise := n.promises
  let n := { n with promises := promise + 1 }
  if n.isLeader = false then cancelCommit env promise n.store.logsSize n
  else
    let log : LogEntry := ⟨n.store.logsSize, n.store.currentTerm, command⟩
    if n.clusterSize ≤ 1 then completeCommit env promise log true n
    else
      let (accepted, n) := n.setPendingCommit ⟨log, promise, fun _ => none⟩
      if accepted = false then cancelCommit env promise log.id n else n

/-! ## Replication: the follower's side -/

/-- The end of `request_local_commit`: the entry of the request is pushed. -/
def pushRequested (request : AppendEntriesRequest) (n : Node) : Bool × Node :=
  let log : LogEntry := ⟨request.leaderCommit, request.term, some request.entries⟩
  let (pushed, n) := n.onStore (·.pushLog env.putOk (some log))
  if pushed = false then (false, n) else (true, invokeCommitCallback env log n)

def requestLocalCommit (request : AppendEntriesRequest) (n : Node) : Bool × Node :=
  match n.store.lastLog with
  | none => pushRequested env request n
  | some log =>
    if log.command.isSome ∧ log.id = request.leaderCommit ∧ log.term = request.term then
      (true, n)
    else if log.id ≥ request.leaderCommit then
      let n := (n.onStore (·.revertLog env.putOk request.leaderCommit)).2
      pushRequested env request (invokeRevertCallback env request.leaderCommit n)
    else pushRequested env request n

/-- `request_local_rollback`: no callback is invoked. -/
def requestLocalRollback (commitIndex : Nat) (n : Node) : Node :=
  (n.onStore (·.revertLog env.putOk commitIndex)).2

/-- The part of `on_append_entries_requested` that handles the entry of the request. -/
def appendRequested (request : AppendEntriesRequest) (n : Node) : Bool × Node :=
  if request.entries.length = 0 then (false, n)
  else if request.leaderCommit = 0 then requestLocalCommit env request n
  else
    match n.store.log request.prevLogIndex with
    | none => (false, n)
    | some log =>
      if log.term ≠ request.prevLogTerm then (false, requestLocalRollback env log.id n)
      else requestLocalCommit env request n

/-- `on_append_entries_requested`. A request of an older term is marked as failed, and its entry
is then handled like any other. -/
def onAppendEntriesRequested (request : AppendEntriesRequest) (n : Node) :
    AppendEntriesResponse × Node :=
  if n.isValidNode request.leaderId = false then ({}, n)
  else
    let term := n.store.currentTerm
    let n := if request.term < term then n
      else
        let n := (updateTerm env request.term false n).2
        raise env .leaderDiscovered { n with broadcastReceived := true }
    let (success, n) := appendRequested env request n
    (⟨term, success⟩, n)

/-! ## Reading the log -/

def getCommandsSize (n : Node) : Nat := n.store.logsSize

/-- `get_command`: null past the end of the log. -/
def getCommand (id : Nat) (n : Node) : Option Command := (n.store.log id).bind (·.command)

/-! ## Top-level callbacks -/

/-- `StateMachine::handle`. -/
def handle (event : Event) (n : Node) : Node :=
  handleWith env (startElection env) broadcast event n

/-- The callback of the election timer. -/
def onElectionTimer (n : Node) : Node :=
  if n.broadcastReceived then { n with broadcastReceived := false }
  else handle env .timedout n

end Node

/-- The callbacks the executor runs and the calls the user makes. -/
inductive Input
  | electionTimer
  | broadcastTimer
  | commitCommand (command : Option Command)
  | appendEntries (request : AppendEntriesRequest)
  | requestVote (request : RequestVoteRequest)
  | appendEntriesResponse (id : Nat) (request : AppendEntriesRequest)
      (response : AppendEntriesResponse)
  | requestVoteResponse (response : RequestVoteResponse)
  deriving DecidableEq, Repr

namespace Node

variable (env : Env)

/-- The callback of an input; an answer leaves when the service callback has returned. -/
def dispatch (input : Input) (n : Node) : Node :=
  match input with
  | .electionTimer => if n.electionTimer then onElectionTimer env n else n
  | .broadcastTimer => if n.broadcastTimer then handle env .broadcastTimedout n else n
  | .commitCommand command => commitCommand env command n
  | .appendEntries request =>
    let (response, n) := onAppendEntriesRequested env request n
    n.emit (.replyAppendEntries request response)
  | .requestVote request =>
    let (response, n) := onRequestVoteRequested env request n
    n.emit (.replyRequestVote request response)
  | .appendEntriesResponse id request response =>
    onAppendEntriesResponse env id request response n
  | .requestVoteResponse response => onRequestVoteResponse env response n

/-- A broadcast reads the data of a null command: the entry at some peer's `next_index_` has
none. -/
def broadcastsNull (n : Node) : Bool :=
  let (pending, n) := n.getPendingCommit
  let log := match pending with
    | some commit => some commit.log
    | none => n.store.lastLog
  n.otherNodes.any fun node =>
    log.any (node.nextIndex ≤ ·.id) && (n.onLogGetRequest node.nextIndex).1.any (·.command.isNone)

/-- The callback of an input dereferences a null command, and what it does is undefined. -/
def readsNull (input : Input) (n : Node) : Bool :=
  match input with
  | .broadcastTimer => n.broadcastTimer && n.isLeader && n.broadcastsNull
  | _ => false

/-- One top-level callback. -/
def run (input : Input) (n : Node) : Node := dispatch env input { n with trace := [] }

/-- `initialize_other_nodes`: the keys of `other_nodes_` in order, each with the size of the log
as its next index. -/
def initializeOtherNodes (ids : List Nat) (nodeId nextIndex : Nat) : List OtherNode :=
  ((ids.filter (· ≠ nodeId)).dedup.insertionSort (· ≤ ·)).map fun id => ⟨id, nextIndex, 0⟩

/-- `ClusterNodeImpl::ClusterNodeImpl`: the store is opened, the state machines are built, and
the raft one is started. -/
def create (ids : List Nat) (nodeId : Nat) (db : LevelDB) : Node :=
  let store := ContextStore.create env.putOk db
  let size := ids.length % 2 ^ 32
  let n : Node :=
    { nodeId := nodeId
      clusterSize := size
      majority := size / 2 + 1
      store := { store with journal := [] }
      otherNodes := initializeOtherNodes ids nodeId store.logsSize
      pendingCommit := none
      broadcastReceived := false
      electionTimer := false
      broadcastTimer := false
      state := .standby
      lifecycle := .inactive
      promises := 0
      trace := store.journal.map fun p => .put p.1 p.2 }
  handle env .started n

end Node

end Foros
