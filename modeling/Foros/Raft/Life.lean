import Foros.Lib.Run
import Foros.Raft.Context

/-!
# The life of a node

One node, the callbacks it runs, and the crashes it suffers. A crash cuts a callback after any
number of its effects: the `Put`s before the cut are in the database, the messages before it have
left, and a new process starts on that database. A vector of `2 ^ 64` entries does not exist, as in
a cluster, and a callback that dereferences a null command is cut or not run at all. In a `Voter`
any single `Put` may fail as well; so it may in a `Session`, which keeps the commands a user has
asked to be committed. `Life.service` is a node that never crashes, and `replay` what an application
makes of its notices.
-/

namespace Foros

/-- The `Put`s among effects. -/
def Node.puts (es : List Effect) : List (String × Bytes) :=
  es.filterMap fun
    | .put key value => some (key, value)
    | _ => none

/-- The vote an effect makes visible, with its term: a granted answer, or the candidacy a request
for votes announces. -/
def Effect.vote : Effect → Option (Nat × Nat)
  | .replyRequestVote request response =>
    if response.voteGranted then some (response.term, request.candidateId) else none
  | .sendRequestVote _ request => some (request.term, request.candidateId)
  | _ => none

/-- The lifecycle state an effect notifies the user of. -/
def Effect.toldState : Effect → Option LifecycleState
  | .lifecycle state => some state
  | _ => none

/-- The lifecycle states the latest callback has notified the user of, oldest first. -/
def Node.told (n : Node) : List LifecycleState := n.trace.filterMap Effect.toldState

/-- The terms in a message. -/
def Effect.terms : Effect → List Nat
  | .sendAppendEntries _ request => [request.term, request.prevLogTerm]
  | .sendRequestVote _ request => [request.term, request.loatDataTerm]
  | .replyAppendEntries _ response => [response.term]
  | .replyRequestVote _ response => [response.term]
  | _ => []

structure Life where
  node : Node
  /-- Everything the node has done, over all its processes, oldest first. -/
  effects : List Effect

inductive LifeEvent
  | handle (input : Input)
  /-- The callback is cut after `k` effects, and the process starts again. -/
  | crash (input : Input) (k : Nat)
  deriving DecidableEq, Repr

def LifeEvent.input : LifeEvent → Input
  | .handle input => input
  | .crash input _ => input

namespace Life

variable (ids : List Nat) (me : Nat)

def step (l : Life) (event : LifeEvent) : Option Life :=
  let n := l.node.run .plain event.input
  if n.store.logs.length < 2 ^ 64 then
    match event with
    | .handle input => if l.node.readsNull input then none else some ⟨n, l.effects ++ n.trace⟩
    | .crash _ k =>
      let es := n.trace.take k
      some ⟨Node.create .plain ids me (l.node.store.db.putAll (Node.puts es)), l.effects ++ es⟩
  else none

/-- A life that starts on an empty database. -/
def system : Lib.System Life LifeEvent where
  init := ⟨Node.create .plain ids me .empty, []⟩
  step := step ids me

end Life

/-- A life whose events meet `ok`, newest state first. -/
abbrev LifeRun (ids : List Nat) (me : Nat) (ok : Life → LifeEvent → Prop) (h : List Life) : Prop :=
  (Life.system ids me).Run ok h

/-! ## A voter whose `Put`s fail -/

/-- A node that is asked for its vote, and the votes it has granted in all its processes, as pairs
of a term and a candidate. -/
structure Voter where
  node : Node
  granted : List (Nat × Nat)

/-- What can happen to a voter; `ok` says which `Put`s succeed meanwhile. -/
inductive VoterEvent
  | handle (ok : Nat → Bool) (request : RequestVoteRequest)
  /-- The process dies while it handles the request, and the next one opens the database. The
  answer has not left, and the `Put`s it did not come to are among those that fail: a crash between
  two requests is one where none succeeds. -/
  | crash (ok : Nat → Bool) (request : RequestVoteRequest) (reopenOk : Nat → Bool)

namespace Voter

variable (ids : List Nat) (me : Nat)

def step (v : Voter) : VoterEvent → Voter
  | .handle ok request =>
    let (response, n) := v.node.onRequestVoteRequested (.faulty ok) request
    ⟨n, v.granted ++
      if response.voteGranted then [(response.term, request.candidateId)] else []⟩
  | .crash ok request reopenOk =>
    let (_, n) := v.node.onRequestVoteRequested (.faulty ok) request
    ⟨Node.create (.faulty reopenOk) ids me n.store.db, v.granted⟩

/-- A voter that starts as `n`. -/
def system (n : Node) : Lib.System Voter VoterEvent where
  init := ⟨n, []⟩
  step v event := some (v.step ids me event)

end Voter

/-! ## A node and its user -/

/-- The command of a call of `commit_command`. -/
def Input.asked : Input → List (Option Command)
  | .commitCommand command => [command]
  | _ => []

/-- A node whose `Put`s may fail, and the commands its user has passed to it: promise `p` is for
the `p`-th of them. -/
structure Session where
  node : Node
  asked : List (Option Command)

namespace Session

/-- One callback, in which the `Put`s of `ok` succeed. -/
def step (s : Session) (ok : Nat → Bool) (input : Input) : Session :=
  ⟨s.node.run (.faulty ok) input, s.asked ++ input.asked⟩

/-- A session with a node that opens the database `db`. -/
def system (ok : Nat → Bool) (ids : List Nat) (me : Nat) (db : LevelDB) :
    Lib.System Session ((Nat → Bool) × Input) where
  init := ⟨Node.create (.faulty ok) ids me db, []⟩
  step s a := if s.node.readsNull a.2 then none else some (s.step a.1 a.2)

end Session

/-! ## A node without crashes -/

/-- A node that opens the database `db` and then runs callbacks. -/
def Life.service (ids : List Nat) (me : Nat) (db : LevelDB) : Lib.System Life Input where
  init :=
    let n := Node.create .plain ids me db
    ⟨n, n.trace⟩
  step l input :=
    let n := l.node.run .plain input
    if l.node.readsNull input then none else some ⟨n, l.effects ++ n.trace⟩

/-- A run of a node without crashes whose callbacks meet `ok`, newest state first. -/
abbrev ServiceRun (ids : List Nat) (me : Nat) (db : LevelDB) (ok : Life → Input → Prop)
    (h : List Life) : Prop :=
  (Life.service ids me db).Run ok h

/-- A copy of the log after a notice, kept by an application; `none` when a committed command does
not go on at the end of the copy. -/
def Effect.replay (replica : List (Option Command)) : Effect → Option (List (Option Command))
  | .committed id command => if replica.length = id then some (replica ++ [command]) else none
  | .reverted id => some (replica.take id)
  | _ => some replica

/-- A copy of the log after the notices among effects, oldest first. -/
def replay (replica : List (Option Command)) (es : List Effect) :
    Option (List (Option Command)) :=
  es.foldlM Effect.replay replica

end Foros
