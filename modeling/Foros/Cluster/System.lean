import Foros.Lib.Run
import Foros.Raft.Context

/-!
# A cluster of nodes

Every node is built with the same `cluster_node_ids`. A step is one callback of one node, the
delivery or the loss of a packet, or a crash followed by a restart from the stored context. The
network holds the packets in flight, in any order; delivering one removes it. A request carries
the number of starts of the process that sent it (its client), and the answer to a request of an
earlier process is dropped by the middleware. A vector of `2 ^ 64` entries does not exist: a
callback that would build one does not complete. `ClusterRun` is a run in which the user's
callbacks leave the nodes alone, `UserRun` one in which they call the nodes again.
-/

namespace Foros

structure Config where
  ids : List Nat
  nodup : ids.Nodup
  /-- Node ids are `uint32_t`. -/
  id_lt : ∀ i ∈ ids, i < 2 ^ 32
  /-- The size of the cluster is a `uint32_t`. -/
  size_lt : ids.length < 2 ^ 32

/-- The nodes `0, …, n - 1`. -/
def Config.range (n : Nat) (h : n < 2 ^ 32) : Config where
  ids := List.range n
  nodup := List.nodup_range
  id_lt i hi := Nat.lt_trans (List.mem_range.1 hi) h
  size_lt := by simpa using h

inductive Message
  | appendEntries (request : AppendEntriesRequest)
  | appendEntriesResponse (request : AppendEntriesRequest) (response : AppendEntriesResponse)
  | requestVote (request : RequestVoteRequest)
  | requestVoteResponse (response : RequestVoteResponse)
  deriving DecidableEq, Repr

structure Packet where
  src : Nat
  dst : Nat
  /-- The number of starts of the client: the sender of a request, the receiver of an answer. -/
  boot : Nat
  body : Message
  deriving DecidableEq, Repr

structure Cluster where
  nodes : Nat → Node
  boots : Nat → Nat
  net : List Packet

inductive Action
  | electionTimer (i : Nat)
  | broadcastTimer (i : Nat)
  | commitCommand (i : Nat) (command : Command)
  | deliver (k : Nat)
  | lose (k : Nat)
  | restart (i : Nat)
  deriving DecidableEq, Repr

namespace Cluster

variable (cfg : Config)

/-- All nodes started on empty databases. -/
def init : Cluster where
  nodes i := Node.create .plain cfg.ids i .empty
  boots _ := 0
  net := []

/-- The packet of an effect of node `i`: a request to a peer, or the answer to the packet
`client`. -/
def packet (i boot : Nat) (client : Option Packet) : Effect → Option Packet
  | .sendAppendEntries dst request => some ⟨i, dst, boot, .appendEntries request⟩
  | .sendRequestVote dst request => some ⟨i, dst, boot, .requestVote request⟩
  | .replyAppendEntries request response =>
    client.map fun p => ⟨i, p.src, p.boot, .appendEntriesResponse request response⟩
  | .replyRequestVote _ response =>
    client.map fun p => ⟨i, p.src, p.boot, .requestVoteResponse response⟩
  | _ => none

/-- Node `i` becomes `n`, and the messages of its latest callback join the network `net`. -/
def update (i : Nat) (n : Node) (client : Option Packet) (net : List Packet) (s : Cluster) :
    Option Cluster :=
  if n.store.logs.length < 2 ^ 64 then
    some { s with
      nodes := Function.update s.nodes i n
      net := net ++ n.trace.filterMap (packet i (s.boots i) client) }
  else none

/-- Node `i` runs a callback, and its user's callbacks are those of `env`. -/
def callbackIn (env : Env) (i : Nat) (input : Input) (client : Option Packet)
    (net : List Packet) (s : Cluster) : Option Cluster :=
  s.update i ((s.nodes i).run env input) client net

/-- Node `i` runs a callback, and its user's callbacks leave it alone. -/
abbrev callback (i : Nat) (input : Input) (client : Option Packet) (net : List Packet)
    (s : Cluster) : Option Cluster :=
  s.callbackIn .plain i input client net

/-- The input of a packet at the node it is delivered to. -/
def input (p : Packet) : Input :=
  match p.body with
  | .appendEntries request => .appendEntries request
  | .appendEntriesResponse request response => .appendEntriesResponse p.src request response
  | .requestVote request => .requestVote request
  | .requestVoteResponse response => .requestVoteResponse response

/-- Whether the client that waits for the packet's answer is gone. -/
def orphan (p : Packet) (s : Cluster) : Bool :=
  match p.body with
  | .appendEntriesResponse _ _ => p.boot ≠ s.boots p.dst
  | .requestVoteResponse _ => p.boot ≠ s.boots p.dst
  | _ => false

/-- A step in which the user's callbacks are those of `env`. None is registered before the
constructor has returned. -/
def stepIn (env : Env) (s : Cluster) : Action → Option Cluster
  | .electionTimer i =>
    if i ∈ cfg.ids then s.callbackIn env i .electionTimer none s.net else none
  | .broadcastTimer i =>
    if i ∈ cfg.ids then s.callbackIn env i .broadcastTimer none s.net else none
  | .commitCommand i command =>
    if i ∈ cfg.ids then s.callbackIn env i (.commitCommand (some command)) none s.net else none
  | .deliver k =>
    match s.net[k]? with
    | none => none
    | some p =>
      if s.orphan p then some { s with net := s.net.eraseIdx k }
      else s.callbackIn env p.dst (input p) (some p) (s.net.eraseIdx k)
  | .lose k => if k < s.net.length then some { s with net := s.net.eraseIdx k } else none
  | .restart i =>
    if i ∈ cfg.ids then
      some { s with
        nodes := Function.update s.nodes i
          (Node.create .plain cfg.ids i (s.nodes i).store.db)
        boots := Function.update s.boots i (s.boots i + 1) }
    else none

/-- A step in which the user's callbacks leave the node alone. -/
def step (s : Cluster) (a : Action) : Option Cluster := stepIn cfg .plain s a

/-- The callback a step runs: the node and its input. -/
def handled (s : Cluster) : Action → Option (Nat × Input)
  | .electionTimer i => some (i, .electionTimer)
  | .broadcastTimer i => some (i, .broadcastTimer)
  | .commitCommand i command => some (i, .commitCommand (some command))
  | .deliver k =>
    match s.net[k]? with
    | none => none
    | some p => if s.orphan p then none else some (p.dst, input p)
  | .lose _ => none
  | .restart _ => none

/-- The callback a step runs is not a `bad` one. -/
def Avoids (bad : Node → Input → Prop) (s : Cluster) (a : Action) : Prop :=
  ∀ i inp, s.handled a = some (i, inp) → ¬ bad (s.nodes i) inp

instance (bad : Node → Input → Prop) [∀ n inp, Decidable (bad n inp)] (s : Cluster) (a : Action) :
    Decidable (Avoids bad s a) :=
  match hh : s.handled a with
  | none => isTrue fun i inp he => by rw [hh] at he; cases he
  | some (i, inp) =>
    if hb : bad (s.nodes i) inp then isFalse fun hav => hav i inp hh hb
    else isTrue fun i' inp' he => by rw [hh] at he; cases he; exact hb

/-- The cluster as a transition system. -/
def system : Lib.System Cluster Action where
  init := init cfg
  step := step cfg

/-- The cluster with its users: every step comes with what the user's callbacks do in it. -/
def users : Lib.System Cluster (Env × Action) where
  init := init cfg
  step s a := stepIn cfg a.1 s a.2

end Cluster

/-- A run of a cluster whose steps meet `ok`, newest state first. The user's callbacks leave the
nodes alone. -/
abbrev ClusterRun (cfg : Config) (ok : Cluster → Action → Prop) (h : List Cluster) : Prop :=
  (Cluster.system cfg).Run ok h

/-- A run in which the user's callbacks may do something. -/
abbrev UserRun (cfg : Config) (ok : Cluster → Env × Action → Prop) (h : List Cluster) : Prop :=
  (Cluster.users cfg).Run ok h

end Foros
