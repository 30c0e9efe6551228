import Mathlib.Algebra.Order.Group.Nat
import Mathlib.Data.List.Basic

/-!
# Data of the Raft layer

Log entries, the four messages of `foros_msgs`, the states and events of the two state machines,
and the effects a callback has outside the node. Byte strings are lists of `UInt8`. Ids, indices
and terms are naturals; the places where the source wraps (`increase_term`, the `uint32_t`
counters, the stored words) wrap explicitly.
-/

namespace Foros

abbrev Bytes := List UInt8

/-- `Command`: its data. A `Command::SharedPtr` is an `Option Command`. -/
abbrev Command := Bytes

structure LogEntry where
  id : Nat
  term : Nat
  command : Option Command
  deriving DecidableEq, Repr

/-- What a commit future resolves to. -/
structure CommandCommitResponse where
  id : Nat
  command : Option Command
  result : Bool
  deriving DecidableEq, Repr

/-! ## Messages -/

/-- `AppendEntries` request; a default-constructed message has all fields zero. -/
structure AppendEntriesRequest where
  term : Nat := 0
  leaderId : Nat := 0
  prevLogIndex : Nat := 0
  prevLogTerm : Nat := 0
  entries : Bytes := []
  leaderCommit : Nat := 0
  deriving DecidableEq, Repr

structure AppendEntriesResponse where
  term : Nat := 0
  success : Bool := false
  deriving DecidableEq, Repr

/-- `RequestVote` request (`loat_data_term` is the source's spelling). -/
structure RequestVoteRequest where
  term : Nat := 0
  candidateId : Nat := 0
  lastDataIndex : Nat := 0
  loatDataTerm : Nat := 0
  deriving DecidableEq, Repr

structure RequestVoteResponse where
  term : Nat := 0
  voteGranted : Bool := false
  deriving DecidableEq, Repr

/-! ## State machines -/

/-- `raft::StateType`; `kStay`, which is no state, is `none` where a `StateType` is returned. -/
inductive StateType
  | standby | follower | candidate | leader
  deriving DecidableEq, Repr

/-- `raft::Event`. -/
inductive Event
  | started | timedout | leaderDiscovered | newTermReceived | elected | terminated
  | broadcastTimedout
  deriving DecidableEq, Repr

/-- The states' `transition_map_`: `none` is an event that is not in the map (`State::handle`
returns before the state's callback), `some none` is `kStay` after the callback. -/
def transitionMap : StateType → Event → Option (Option StateType)
  | .standby, .started => some (some .follower)
  | .follower, .terminated => some (some .standby)
  | .follower, .timedout => some (some .candidate)
  | .candidate, .terminated => some (some .standby)
  | .candidate, .timedout => some none
  | .candidate, .elected => some (some .leader)
  | .candidate, .leaderDiscovered => some (some .follower)
  | .candidate, .newTermReceived => some (some .follower)
  | .leader, .terminated => some (some .standby)
  | .leader, .leaderDiscovered => some (some .follower)
  | .leader, .newTermReceived => some (some .follower)
  | .leader, .broadcastTimedout => some none
  | _, _ => none

/-- `lifecycle::StateType`. -/
inductive LifecycleState
  | inactive | standby | active
  deriving DecidableEq, Repr

/-- `lifecycle::Event`. -/
inductive LifecycleEvent
  | activate | deactivate | standby
  deriving DecidableEq, Repr

/-- The lifecycle states' `transition_map_` (`none` is `kUnknown`). -/
def lifecycleMap : LifecycleState → LifecycleEvent → Option LifecycleState
  | .inactive, .standby => some .standby
  | .inactive, .activate => some .active
  | .standby, .activate => some .active
  | .standby, .deactivate => some .inactive
  | .active, .standby => some .standby
  | .active, .deactivate => some .inactive
  | _, _ => none

/-- The lifecycle event of a raft state (`ClusterNodeImpl::handle(raft::StateType)`). -/
def lifecycleEvent : StateType → LifecycleEvent
  | .standby => .deactivate
  | .follower => .standby
  | .candidate => .standby
  | .leader => .activate

/-! ## Effects -/

/-- What a callback does outside the node, in the order it does it: a `Put` that LevelDB
executed, a message handed to the middleware, a user callback invoked, a promise fulfilled. -/
inductive Effect
  | put (key : String) (value : Bytes)
  | sendAppendEntries (dst : Nat) (request : AppendEntriesRequest)
  | sendRequestVote (dst : Nat) (request : RequestVoteRequest)
  | replyAppendEntries (request : AppendEntriesRequest) (response : AppendEntriesResponse)
  | replyRequestVote (request : RequestVoteRequest) (response : RequestVoteResponse)
  | committed (id : Nat) (command : Option Command)
  | reverted (id : Nat)
  | resolved (promise : Nat) (response : CommandCommitResponse)
  | lifecycle (state : LifecycleState)
  deriving DecidableEq, Repr

end Foros
