import Foros.Raft.Proof.Exchange
import Foros.Raft.Proof.Faulty

/-!
# Before and after an election

Two things the code relies on around an election. A leader stays undisturbed by votes that arrive
when it is elected already (`late_votes`): `check_elected` runs again on each of them and sets the
indices of all peers back. And an election opens a new term (`election_reuses_no_term`): the
increment of the largest term wraps, and `reset_vote` then forgets a vote of the current one.
-/

namespace Foros

namespace Node

/-! ## Late votes -/

/-- The role, the term, the log, the pending commit and the indices of every peer are as before. -/
structure KeepsLeadership (n n' : Node) : Prop where
  state : n'.state = n.state
  currentTerm : n'.store.currentTerm = n.store.currentTerm
  logs : n'.store.logs = n.store.logs
  pendingCommit : n'.pendingCommit = n.pendingCommit
  otherNodes : n'.otherNodes = n.otherNodes

theorem KeepsLeadership.refl (n : Node) : n.KeepsLeadership n := ⟨rfl, rfl, rfl, rfl, rfl⟩

/-- The index that `check_elected` assumes every peer to have reached. -/
def lastIndex (n : Node) : Nat := (n.store.lastLog.map (·.id)).getD 0

/-- An election that a leader wins again only moves the indices of its peers. -/
theorem checkElected_leader {env : Env} {n : Node} (hl : n.state = .leader) :
    checkElected env n =
      if n.store.voteReceived < n.majority then n
      else { n with otherNodes := n.otherNodes.map (setMatchIndex n.lastIndex) } := by
  have hstay : ∀ m : Node, m.state = .leader → raise env .elected m = m := by
    intro m hm
    simp only [raise, handleWith, hm, transitionMap]
  unfold checkElected
  split
  · rfl
  · exact hstay _ hl

theorem map_setMatchIndex_eq_self {nodes : List OtherNode} {i : Nat} :
    nodes.map (setMatchIndex i) = nodes ↔
      ∀ node ∈ nodes, node.matchIndex = i ∧ node.nextIndex = i + 1 := by
  have hone : ∀ node : OtherNode,
      setMatchIndex i node = node ↔ node.matchIndex = i ∧ node.nextIndex = i + 1 := by
    rintro ⟨id, next, mtch⟩
    simp only [setMatchIndex, OtherNode.mk.injEq, true_and]
    constructor
    · rintro ⟨h1, h2⟩
      exact ⟨h2.symm, h1.symm⟩
    · rintro ⟨h1, h2⟩
      exact ⟨h2.symm, h1.symm⟩
  rw [← forall₂_congr fun node _ => hone node]
  constructor
  · intro h
    exact List.map_inj_left.1 (h.trans (List.map_id nodes).symm)
  · intro h
    exact (List.map_congr_left h).trans (List.map_id' nodes)

end Node

/-- **When a late vote leaves the leader alone.** For every leader and every answer of no newer
term: the answer is of an older term, or not granted, or still no majority of votes, or it finds
every peer where `check_elected` puts it. -/
theorem late_votes {env : Env} (leader : Node) (response : RequestVoteResponse)
    (hl : leader.state = .leader) (ht : response.term ≤ leader.store.currentTerm) :
    leader.KeepsLeadership (Node.onRequestVoteResponse env response leader) ↔
      response.term < leader.store.currentTerm ∨ response.voteGranted = false ∨
        (leader.store.voteReceived + 1) % 2 ^ 32 < leader.majority ∨
        ∀ node ∈ leader.otherNodes,
          node.matchIndex = leader.lastIndex ∧ node.nextIndex = leader.lastIndex + 1 := by
  unfold Node.onRequestVoteResponse
  by_cases hlt : response.term < leader.store.currentTerm
  · rw [if_pos hlt]
    exact iff_of_true (.refl leader) (.inl hlt)
  rw [if_neg hlt, Node.updateTerm_of_le ht]
  cases hg : response.voteGranted with
  | false => exact iff_of_true (.refl leader) (.inr (.inl rfl))
  | true =>
    simp only [hlt, Bool.false_eq_true, Bool.true_eq_false, if_false, false_or]
    rw [Node.checkElected_leader (n := { leader with
      store := leader.store.increaseVoteReceived }) hl]
    have hcount : ∀ nodes : List OtherNode, leader.KeepsLeadership
        { leader with
          store := leader.store.increaseVoteReceived
          otherNodes := nodes } ↔ nodes = leader.otherNodes :=
      fun nodes => ⟨fun h => h.otherNodes, fun h => ⟨rfl, rfl, rfl, rfl, h⟩⟩
    split
    · rename_i hless
      exact iff_of_true ((hcount _).2 rfl) (.inl hless)
    · rename_i hge
      have hmajority : ¬ (leader.store.voteReceived + 1) % 2 ^ 32 < leader.majority := hge
      rw [or_iff_right hmajority, ← Node.map_setMatchIndex_eq_self]
      exact hcount _

/-- The fourth vote finds the peers of a leader that has not replicated anything. -/
theorem late_votes_new_leader :
    (Node.firstLeader []).KeepsLeadership
      (Node.onRequestVoteResponse .plain ⟨1, true⟩ (Node.firstLeader [])) :=
  (late_votes _ ⟨1, true⟩ (by decide +kernel) (by decide +kernel)).2
    (.inr (.inr (.inr (by decide +kernel))))

/-- Node 1 has told the leader that it lacks its first entry, and the fourth vote undoes that. -/
theorem late_votes_reset_indices :
    ¬ ∀ (leader : Node) (response : RequestVoteResponse), leader.state = .leader →
      response.term ≤ leader.store.currentTerm →
      leader.KeepsLeadership (Node.onRequestVoteResponse .plain response leader) := by
  intro h
  have hkeeps := h (Node.newLeader []) ⟨2, true⟩ (by decide +kernel) (by decide +kernel)
  have hmoved : (Node.onRequestVoteResponse .plain ⟨2, true⟩ (Node.newLeader [])).otherNodes ≠
      (Node.newLeader []).otherNodes := by decide +kernel
  exact hmoved hkeeps.otherNodes

/-! ## New terms -/

/-- Either the term is larger and the vote in it the node's own, or the term and its vote are as
before; and no vote for the node itself is counted in a term in which it has voted for another. -/
structure Node.ReusesNoTerm (n n' : Node) : Prop where
  vote : n.store.currentTerm < n'.store.currentTerm ∧ n'.store.votedFor = n.nodeId ∧
      n'.store.voted = true ∨
    n'.store.currentTerm = n.store.currentTerm ∧ n'.store.votedFor = n.store.votedFor ∧
      n'.store.voted = n.store.voted
  notCounted : n.store.voted = true → n.store.votedFor ≠ n.nodeId →
    n'.store.currentTerm = n.store.currentTerm →
      ¬ (n'.store.votedFor = n.nodeId ∧ 0 < n'.store.voteReceived)

/-- **When an election reuses no term.** For every node, whichever `Put`s fail: its term is not the
largest one, or its vote in that term is its own already. -/
theorem election_reuses_no_term {ok : Nat → Bool} (n : Node)
    (ht : n.store.currentTerm < 2 ^ 64) :
    n.ReusesNoTerm (Node.startElection (.faulty ok) n) ↔
      n.store.currentTerm + 1 < 2 ^ 64 ∨ n.store.voted = true ∧ n.store.votedFor = n.nodeId := by
  have hcore := Node.core_startElection ok n
  have hterm : (Node.startElection (.faulty ok) n).store.currentTerm =
      max n.store.currentTerm ((n.store.currentTerm + 1) % 2 ^ 64) :=
    (congrArg Core.term hcore).trans (Core.elect_term _)
  have hfor : (Node.startElection (.faulty ok) n).store.votedFor = n.nodeId :=
    (congrArg Core.votedFor hcore).trans (Core.elect_votedFor _)
  have hvoted : (Node.startElection (.faulty ok) n).store.voted = true :=
    (congrArg Core.voted hcore).trans (Core.elect_voted _)
  constructor
  · rintro ⟨⟨hlt, -⟩ | ⟨-, hfor', hvoted'⟩, -⟩
    · rw [hterm] at hlt
      omega
    · rw [hfor] at hfor'
      rw [hvoted] at hvoted'
      exact .inr ⟨hvoted'.symm, hfor'.symm⟩
  · rintro (hlt | ⟨hown, hme⟩)
    · have hnext : n.store.currentTerm <
          (Node.startElection (.faulty ok) n).store.currentTerm := by
        rw [hterm, Nat.mod_eq_of_lt hlt]
        omega
      exact ⟨.inl ⟨hnext, hfor, hvoted⟩, fun _ _ heq => by omega⟩
    · refine ⟨?_, fun _ hne => absurd hme hne⟩
      rcases Nat.lt_or_ge n.store.currentTerm
        (Node.startElection (.faulty ok) n).store.currentTerm with hlt | hge
      · exact .inl ⟨hlt, hfor, hvoted⟩
      · rw [hterm] at hge
        refine .inr ⟨?_, hfor.trans hme.symm, hvoted.trans hown.symm⟩
        rw [hterm]
        omega

/-- Node 1 has voted for node 0 in term 5 and stands for election in term 6. -/
theorem election_reuses_no_term_next :
    (Node.oneOfFive 1 [.requestVote ⟨5, 0, 0, 0⟩]).ReusesNoTerm
      (Node.startElection (.faulty fun _ => false)
        (Node.oneOfFive 1 [.requestVote ⟨5, 0, 0, 0⟩])) :=
  (election_reuses_no_term _ (by decide +kernel)).2 (.inl (by decide +kernel))

/-- Node 1 has voted for node 0 in the largest term and votes for itself in it. -/
theorem election_reuses_largest_term :
    ¬ ∀ n : Node, n.store.currentTerm < 2 ^ 64 → n.ReusesNoTerm (Node.startElection .plain n) := by
  intro h
  have hreuses := h (Node.oneOfFive 1 [.requestVote ⟨2 ^ 64 - 1, 0, 0, 0⟩]) (by decide +kernel)
  have hvote : (Node.oneOfFive 1 [.requestVote ⟨2 ^ 64 - 1, 0, 0, 0⟩]).store.voted = true ∧
      (Node.oneOfFive 1 [.requestVote ⟨2 ^ 64 - 1, 0, 0, 0⟩]).store.votedFor ≠
        (Node.oneOfFive 1 [.requestVote ⟨2 ^ 64 - 1, 0, 0, 0⟩]).nodeId := by decide +kernel
  exact hreuses.notCounted hvote.1 hvote.2 (by decide +kernel) (by decide +kernel)

end Foros
