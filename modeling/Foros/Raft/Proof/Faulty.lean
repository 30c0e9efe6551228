import Foros.Raft.Proof.Refine

/-!
# The node when `Put`s fail

In `Env.faulty ok` a `Put` may fail. Memory does not notice: the setters of the term and the vote
change it in any case, so the core after an election, a new term or a vote is the one of a plain
environment (`core_updateTerm`, `core_startElection`, `vote_faulty`). Only the database shows which
`Put`s have failed (`db_tryPut`).
-/

namespace Foros

open Lib

namespace Node

variable (ok : Nat → Bool)

/-! ## One `Put` -/

/-- A `Put` on the store of a node. -/
def tryPut (key : String) (value : Bytes) (n : Node) : Node :=
  (n.onStore (·.put ok key value)).2

section

variable (key : String) (value : Bytes) (n : Node)

theorem core_tryPut : (n.tryPut ok key value).core = n.core := by
  unfold tryPut onStore ContextStore.put
  simp only
  split <;> rfl

theorem db_tryPut : (n.tryPut ok key value).store.db =
    if ok n.store.attempts then n.store.db.put key value else n.store.db := by
  unfold tryPut onStore ContextStore.put
  simp only
  split <;> rfl

theorem attempts_tryPut : (n.tryPut ok key value).store.attempts = n.store.attempts + 1 := by
  unfold tryPut onStore ContextStore.put
  simp only
  split <;> rfl

end

/-! ## Setters -/

theorem onStore_setCurrentTerm_eq (t : Nat) (n : Node) :
    (n.onStore (·.setCurrentTerm ok t)).2 =
      tryPut ok kCurrentTermKey (encodeLE 8 t)
        { n with store := { n.store with currentTerm := t } } := rfl

theorem onStore_setVotedFor_eq (id : Nat) (n : Node) :
    (n.onStore (·.setVotedFor ok id)).2 =
      tryPut ok kVotedForKey (encodeLE 4 id)
        { n with store := { n.store with votedFor := id } } := rfl

theorem onStore_setVoted_eq (voted : Bool) (n : Node) :
    (n.onStore (·.setVoted ok voted)).2 =
      tryPut ok kVotedKey (encodeLE 1 voted.toNat)
        { n with store := { n.store with voted := voted } } := rfl

theorem core_setCurrentTerm (t : Nat) (n : Node) :
    (n.onStore (·.setCurrentTerm ok t)).2.core = { n.core with term := t } := by
  rw [onStore_setCurrentTerm_eq, core_tryPut]
  rfl

theorem core_setVotedFor (id : Nat) (n : Node) :
    (n.onStore (·.setVotedFor ok id)).2.core = { n.core with votedFor := id } := by
  rw [onStore_setVotedFor_eq, core_tryPut]
  rfl

theorem core_setVoted (voted : Bool) (n : Node) :
    (n.onStore (·.setVoted ok voted)).2.core = { n.core with voted := voted } := by
  rw [onStore_setVoted_eq, core_tryPut]
  rfl

/-! ## Moves that keep to the core -/

/-- A transition makes no `Put`. -/
theorem raise_faulty (event : Event) (n : Node) :
    raise (.faulty ok) event n = raise .plain event n := rfl

theorem requestVote_faulty (n : Node) : requestVote (.faulty ok) n = requestVote .plain n := rfl

theorem core_resetVote (n : Node) : (resetVote (.faulty ok) n).core = n.core.resetVote := by
  change (Node.onStore (·.setVoted ok false) _).2.core = _
  rw [core_setVoted]
  change { (n.onStore (·.setVotedFor ok 0)).2.core with
    voteReceived := 0, voted := false } = n.core.resetVote
  rw [core_setVotedFor]
  rfl

theorem core_voteForMe_faulty (n : Node) :
    (voteForMe (.faulty ok) n).core = { n.core with
      votedFor := n.core.nodeId
      voted := true
      voteReceived := (n.core.voteReceived + 1) % 2 ^ 32 } := by
  have hset : ((n.onStore (·.setVotedFor ok n.nodeId)).2.onStore (·.setVoted ok true)).2.core =
      { n.core with votedFor := n.nodeId, voted := true } := by
    rw [core_setVoted, core_setVotedFor]
  have hinc : ∀ m : Node, ({ m with store := m.store.increaseVoteReceived } : Node).core =
      { m.core with voteReceived := (m.core.voteReceived + 1) % 2 ^ 32 } := fun _ => rfl
  exact (hinc _).trans (congrArg
    (fun c : Core => { c with voteReceived := (c.voteReceived + 1) % 2 ^ 32 }) hset)

theorem core_updateTerm (t : Nat) (n : Node) :
    (updateTerm (.faulty ok) t false n).2.core = n.core.observe t := by
  by_cases h : t ≤ n.store.currentTerm
  · rw [updateTerm_of_le h, Core.observe_of_le (c := n.core) h]
  · have hadopt : (resetVote (.faulty ok) (n.onStore (·.setCurrentTerm ok t)).2).core =
        { n.core with term := t }.resetVote := by
      rw [core_resetVote, core_setCurrentTerm]
    unfold updateTerm
    rw [if_neg h, Core.observe_of_lt (c := n.core) (Nat.lt_of_not_le h), ← hadopt]
    exact (raise_down (.inl rfl) _).1.core

/-- A vote that is granted is recorded in memory. -/
theorem vote_faulty (request : RequestVoteRequest) (n : Node) :
    vote (.faulty ok) request.term request.candidateId request.lastDataIndex request.loatDataTerm
        n = (⟨n.core.term, decide (n.core.Grants request)⟩,
      if n.core.Grants request then
        ((n.onStore (·.setVotedFor ok request.candidateId)).2.onStore (·.setVoted ok true)).2
      else n) := by
  unfold vote
  simp only [grants_iff]
  by_cases hg : n.core.Grants request
  · simp only [hg, if_true, decide_true]
    rfl
  · simp only [hg, if_false, decide_false]
    rfl

/-! ## Elections -/

/-- `increase_term` to the next term, or nowhere from the largest one. -/
theorem core_increaseTerm (n : Node) :
    (increaseTerm (.faulty ok) n).core =
      if n.store.currentTerm < (n.store.currentTerm + 1) % 2 ^ 64 then
        { n.core with term := (n.store.currentTerm + 1) % 2 ^ 64 }.resetVote
      else n.core := by
  unfold increaseTerm updateTerm
  by_cases h : n.store.currentTerm < (n.store.currentTerm + 1) % 2 ^ 64
  · rw [if_pos h, if_neg (Nat.not_le_of_lt h)]
    simp only [Bool.true_eq_false, if_false]
    rw [core_resetVote]
    exact congrArg Core.resetVote (core_setCurrentTerm ok _ n)
  · rw [if_neg h, if_pos (Nat.le_of_not_lt h)]

/-- The core when an election has started: the next term, with the node's own vote counted. -/
theorem core_startElection (n : Node) :
    (startElection (.faulty ok) n).core = { n.core with
      term := n.core.nextTerm
      votedFor := n.nodeId
      voted := true
      voteReceived := 1 }.elect := by
  have hprepared : (voteForMe (.faulty ok) (resetVote (.faulty ok)
      (increaseTerm (.faulty ok) n))).core = { n.core with
        term := n.core.nextTerm
        votedFor := n.nodeId
        voted := true
        voteReceived := 1 } := by
    have hmax : n.core.nextTerm =
        max n.store.currentTerm ((n.store.currentTerm + 1) % 2 ^ 64) := rfl
    rw [core_voteForMe_faulty, core_resetVote, core_increaseTerm, hmax]
    generalize (n.store.currentTerm + 1) % 2 ^ 64 = t
    by_cases h : n.store.currentTerm < t
    · rw [if_pos h, Nat.max_eq_right (Nat.le_of_lt h)]
      rfl
    · rw [if_neg h, Nat.max_eq_left (Nat.le_of_not_lt h)]
      rfl
  unfold startElection
  rw [requestVote_faulty, (requestVote_spec _).core]
  exact congrArg Core.elect hprepared

end Node

end Foros
