import Foros.Raft.Context

/-!
# The protocol state of a node

`Core` is the part of a node the protocol is about: the term, the vote, the log, the peers, the
pending commit and the raft state, without timers, effects and the database. Each callback is a
function on cores, or one of a few such functions (`Foros/Raft/Proof/Refine.lean`), in an
environment where every `Put` succeeds and user callbacks leave the node alone.
-/

namespace Foros

structure Core where
  nodeId : Nat
  clusterSize : Nat
  majority : Nat
  term : Nat
  votedFor : Nat
  voted : Bool
  voteReceived : Nat
  logs : List LogEntry
  peers : List OtherNode
  pending : Option PendingCommit
  state : StateType

def Node.core (n : Node) : Core where
  nodeId := n.nodeId
  clusterSize := n.clusterSize
  majority := n.majority
  term := n.store.currentTerm
  votedFor := n.store.votedFor
  voted := n.store.voted
  voteReceived := n.store.voteReceived
  logs := n.store.logs
  peers := n.otherNodes
  pending := n.pendingCommit
  state := n.state

/-! ## Logs -/

namespace Logs

def push (log : LogEntry) (logs : List LogEntry) : Bool × List LogEntry :=
  if log.command.isSome ∧ log.id = logs.length then (true, logs ++ [log]) else (false, logs)

def revert (id : Nat) (logs : List LogEntry) : List LogEntry :=
  if id ≥ logs.length then logs else logs.take id

/-- The entry a request carries. -/
def entry (request : AppendEntriesRequest) : LogEntry :=
  ⟨request.leaderCommit, request.term, some request.entries⟩

/-- `request_local_commit`. -/
def commit (request : AppendEntriesRequest) (logs : List LogEntry) : Bool × List LogEntry :=
  match logs.getLast? with
  | none => push (entry request) logs
  | some log =>
    if log.command.isSome ∧ log.id = request.leaderCommit ∧ log.term = request.term then
      (true, logs)
    else if log.id ≥ request.leaderCommit then
      push (entry request) (revert request.leaderCommit logs)
    else push (entry request) logs

/-- What a request does to the log. -/
def append (request : AppendEntriesRequest) (logs : List LogEntry) : Bool × List LogEntry :=
  if request.entries.length = 0 then (false, logs)
  else if request.leaderCommit = 0 then commit request logs
  else
    match logs[request.prevLogIndex]? with
    | none => (false, logs)
    | some log =>
      if log.term ≠ request.prevLogTerm then (false, revert log.id logs)
      else commit request logs

/-! The notices of these operations. -/

def pushNotices (log : LogEntry) (logs : List LogEntry) : List Effect :=
  if (push log logs).1 then [.committed log.id log.command] else []

def commitNotices (request : AppendEntriesRequest) (logs : List LogEntry) : List Effect :=
  match logs.getLast? with
  | none => pushNotices (entry request) logs
  | some log =>
    if log.command.isSome ∧ log.id = request.leaderCommit ∧ log.term = request.term then []
    else if log.id ≥ request.leaderCommit then
      .reverted request.leaderCommit ::
        pushNotices (entry request) (revert request.leaderCommit logs)
    else pushNotices (entry request) logs

def appendNotices (request : AppendEntriesRequest) (logs : List LogEntry) : List Effect :=
  if request.entries.length = 0 then []
  else if request.leaderCommit = 0 then commitNotices request logs
  else
    match logs[request.prevLogIndex]? with
    | none => []
    | some log => if log.term ≠ request.prevLogTerm then [] else commitNotices request logs

end Logs

/-! ## Moves -/

namespace Core

/-- A candidate or a leader becomes a follower; a leader's pending commit is cancelled. -/
def down (c : Core) : Core :=
  match c.state with
  | .candidate => { c with state := .follower }
  | .leader => { c with state := .follower, pending := none }
  | _ => c

def resetVote (c : Core) : Core := { c with votedFor := 0, voted := false, voteReceived := 0 }

/-- A term received from a peer. -/
def observe (term : Nat) (c : Core) : Core :=
  if term ≤ c.term then c else down (resetVote { c with term := term })

/-- Enough votes make a candidate a leader. -/
def elect (c : Core) : Core :=
  if c.voteReceived < c.majority then c
  else
    let id := (c.logs.getLast?.map (·.id)).getD 0
    { c with
      peers := c.peers.map (Node.setMatchIndex id)
      state := if c.state = .candidate then .leader else c.state }

/-- The term after `increase_term`. -/
def nextTerm (c : Core) : Nat := max c.term ((c.term + 1) % 2 ^ 64)

/-- An election starts. -/
def campaign (c : Core) : Core :=
  elect { c with
    term := c.nextTerm
    votedFor := c.nodeId
    voted := true
    voteReceived := 1
    state := .candidate }

def voteRequest (c : Core) : RequestVoteRequest where
  term := c.term
  candidateId := c.nodeId
  lastDataIndex := (c.logs.getLast?.map (·.id)).getD 0
  loatDataTerm := (c.logs.getLast?.map (·.term)).getD 0

/-- The condition of `vote`. -/
def Grants (request : RequestVoteRequest) (c : Core) : Prop :=
  request.term ≥ c.term ∧ c.voted = false ∧ ∀ log ∈ c.logs.getLast?, log.id ≤ request.lastDataIndex

instance (request : RequestVoteRequest) (c : Core) : Decidable (c.Grants request) := by
  unfold Grants; infer_instance

def vote (request : RequestVoteRequest) (c : Core) : Core :=
  if c.Grants request then { c with votedFor := request.candidateId, voted := true } else c

def isValid (id : Nat) (c : Core) : Bool := c.peers.any (·.nodeId = id)

def requestVote (request : RequestVoteRequest) (c : Core) : RequestVoteResponse × Core :=
  if c.isValid request.candidateId = false then ({}, c)
  else
    let c := c.observe request.term
    (⟨c.term, decide (c.Grants request)⟩, c.vote request)

def requestVoteResponse (response : RequestVoteResponse) (c : Core) : Core :=
  if response.term < c.term then c
  else if c.term < response.term then c.observe response.term
  else if response.voteGranted = false then c
  else elect { c with voteReceived := (c.voteReceived + 1) % 2 ^ 32 }

/-- A leader is heard of in the current term. -/
def discover (request : AppendEntriesRequest) (c : Core) : Core :=
  if request.term < c.term then c else (c.observe request.term).down

def appendEntries (request : AppendEntriesRequest) (c : Core) : AppendEntriesResponse × Core :=
  if c.isValid request.leaderId = false then ({}, c)
  else
    let r := Logs.append request c.logs
    (⟨c.term, r.1⟩, { c.discover request with logs := r.2 })

/-- The pending commit, unless its id is no longer the size of the log. -/
def current (c : Core) : Option PendingCommit :=
  c.pending.filter (·.log.id = c.logs.length)

/-- The log with the pending entry. -/
def view (c : Core) : List LogEntry := c.logs ++ (c.current.map (·.log)).toList

/-- The request of `OtherNode::broadcast` with its entry, when the view reaches it. -/
def entryRequest (c : Core) (nextIndex : Nat) : AppendEntriesRequest :=
  match c.view[nextIndex]? with
  | some entry =>
    { term := entry.term
      leaderId := c.nodeId
      entries := entry.command.getD []
      leaderCommit := entry.id }
  | none => { term := c.term, leaderId := c.nodeId }

/-- The request of `OtherNode::broadcast`. -/
def appendRequest (c : Core) (node : OtherNode) : AppendEntriesRequest :=
  if node.nextIndex = 0 then c.entryRequest node.nextIndex
  else
    match c.view[node.nextIndex - 1]? with
    | some entry => { c.entryRequest node.nextIndex with
        prevLogIndex := entry.id
        prevLogTerm := entry.term }
    | none => c.entryRequest node.nextIndex

def complete (log : LogEntry) (c : Core) : Core :=
  { c with logs := (Logs.push log c.logs).2, pending := none }

/-- The pending commit an answer is counted for. -/
def matching (commitIndex term : Nat) (c : Core) : Option PendingCommit :=
  c.pending.filter fun commit => commit.log.id = commitIndex ∧ commit.log.term = term

/-- Whether an answer completes the commit it is counted for. -/
def Completes (id : Nat) (success : Bool) (commit : PendingCommit) (c : Core) : Prop :=
  c.majority ≤
    Node.successCount c.peers (Function.update commit.resultMap id (some success)) success

instance (id : Nat) (success : Bool) (commit : PendingCommit) (c : Core) :
    Decidable (c.Completes id success commit) := by unfold Completes; infer_instance

def count (id commitIndex term : Nat) (success : Bool) (c : Core) : Core :=
  match c.matching commitIndex term with
  | none => c
  | some commit =>
    if c.Completes id success commit then c.complete commit.log
    else { c with pending := some { commit with
      resultMap := Function.update commit.resultMap id (some success) } }

def updatePeer (id : Nat) (request : AppendEntriesRequest) (response : AppendEntriesResponse)
    (c : Core) : Core :=
  { c with peers := c.peers.map fun node =>
      if node.nodeId = id then Node.updateIndex request response node else node }

def appendEntriesResponse (id : Nat) (request : AppendEntriesRequest)
    (response : AppendEntriesResponse) (c : Core) : Core :=
  ((c.updatePeer id request response).observe response.term).count id request.leaderCommit
    response.term response.success

/-- The entry `commit_command` makes. -/
def proposal (command : Option Command) (c : Core) : LogEntry := ⟨c.logs.length, c.term, command⟩

def commitCommand (command : Option Command) (promise : Nat) (c : Core) : Core :=
  if c.state ≠ .leader then c
  else if c.clusterSize ≤ 1 then { c with logs := (Logs.push (c.proposal command) c.logs).2 }
  else if c.current.isSome then c
  else { c with pending := some ⟨c.proposal command, promise, fun _ => none⟩ }

/-! ## Visible effects -/

def voteRequests (c : Core) : List Effect :=
  c.peers.map fun node => .sendRequestVote node.nodeId c.voteRequest

def appendRequests (c : Core) : List Effect :=
  c.peers.map fun node => .sendAppendEntries node.nodeId (c.appendRequest node)

/-- The notices of a completed commit, whether its entry was pushed or not. -/
def completeNotices (promise : Nat) (log : LogEntry) : List Effect :=
  [.committed log.id log.command, .resolved promise ⟨log.id, log.command, true⟩]

def countNotices (id commitIndex term : Nat) (success : Bool) (c : Core) : List Effect :=
  match c.matching commitIndex term with
  | none => []
  | some commit =>
    if c.Completes id success commit then completeNotices commit.promise commit.log else []

def commitNotices (command : Option Command) (promise : Nat) (c : Core) : List Effect :=
  if c.state = .leader ∧ c.clusterSize ≤ 1 then completeNotices promise (c.proposal command)
  else []

def appendNotices (request : AppendEntriesRequest) (c : Core) : List Effect :=
  if c.isValid request.leaderId then Logs.appendNotices request c.logs else []

/-- One callback on cores, with its visible effects. A timer that is stopped, or whose event the
state ignores, does nothing. -/
inductive Step (c : Core) : Input → Core → List Effect → Prop
  | idleElection : Step c .electionTimer c []
  | campaign : c.state = .follower ∨ c.state = .candidate →
      Step c .electionTimer c.campaign c.campaign.voteRequests
  | idleBroadcast : Step c .broadcastTimer c []
  | broadcast : c.state = .leader →
      Step c .broadcastTimer { c with pending := c.current } c.appendRequests
  | commitCommand (command : Option Command) (promise : Nat) :
      Step c (.commitCommand command) (c.commitCommand command promise)
        (c.commitNotices command promise)
  | appendEntries (request : AppendEntriesRequest) :
      Step c (.appendEntries request) (c.appendEntries request).2
        (c.appendNotices request ++ [.replyAppendEntries request (c.appendEntries request).1])
  | requestVote (request : RequestVoteRequest) :
      Step c (.requestVote request) (c.requestVote request).2
        [.replyRequestVote request (c.requestVote request).1]
  | appendEntriesResponse (id : Nat) (request : AppendEntriesRequest)
      (response : AppendEntriesResponse) :
      Step c (.appendEntriesResponse id request response)
        (c.appendEntriesResponse id request response)
        (((c.updatePeer id request response).observe response.term).countNotices id
          request.leaderCommit response.term response.success)
  | requestVoteResponse (response : RequestVoteResponse) :
      Step c (.requestVoteResponse response) (c.requestVoteResponse response) []

end Core

end Foros
