import Foros.Raft.Proof.Logs

/-!
# Moves of the core

Field by field, what the moves of `Foros/Raft/Core.lean` change: stepping down, a term received, an
election, and the pending commit with the view it makes.
-/

namespace Foros.Core

variable {c : Core}

/-! ## Stepping down -/

theorem down_standby (h : c.state = .standby) : c.down = c := by simp only [down, h]

theorem down_follower (h : c.state = .follower) : c.down = c := by simp only [down, h]

theorem down_candidate (h : c.state = .candidate) : c.down = { c with state := .follower } := by
  simp only [down, h]

theorem down_leader (h : c.state = .leader) :
    c.down = { c with state := .follower, pending := none } := by
  simp only [down, h]

/-- Stepping down touches the state and the pending commit only. -/
theorem down_eq (c : Core) :
    ∃ st p, c.down = { c with state := st, pending := p } ∧ st ≠ .candidate ∧ st ≠ .leader ∧
      (p = none ∨ p = c.pending ∧ c.state ≠ .leader) := by
  cases h : c.state with
  | standby =>
    refine ⟨.standby, c.pending, ?_, by decide, by decide, .inr ⟨rfl, by decide⟩⟩
    rw [down_standby h, ← h]
  | follower =>
    refine ⟨.follower, c.pending, ?_, by decide, by decide, .inr ⟨rfl, by decide⟩⟩
    rw [down_follower h, ← h]
  | candidate =>
    exact ⟨_, _, down_candidate h, by decide, by decide, .inr ⟨rfl, by decide⟩⟩
  | leader => exact ⟨_, _, down_leader h, by decide, by decide, .inl rfl⟩

section

variable (c)

@[simp] theorem down_term : c.down.term = c.term := by
  obtain ⟨st, p, h, -⟩ := c.down_eq; rw [h]

@[simp] theorem down_votedFor : c.down.votedFor = c.votedFor := by
  obtain ⟨st, p, h, -⟩ := c.down_eq; rw [h]

@[simp] theorem down_voted : c.down.voted = c.voted := by
  obtain ⟨st, p, h, -⟩ := c.down_eq; rw [h]

@[simp] theorem down_voteReceived : c.down.voteReceived = c.voteReceived := by
  obtain ⟨st, p, h, -⟩ := c.down_eq; rw [h]

@[simp] theorem down_logs : c.down.logs = c.logs := by
  obtain ⟨st, p, h, -⟩ := c.down_eq; rw [h]

@[simp] theorem down_peers : c.down.peers = c.peers := by
  obtain ⟨st, p, h, -⟩ := c.down_eq; rw [h]

theorem down_state : c.down.state ≠ .candidate ∧ c.down.state ≠ .leader := by
  obtain ⟨st, p, h, h1, h2, -⟩ := c.down_eq
  rw [h]
  exact ⟨h1, h2⟩

theorem down_pending : c.down.pending = none ∨ c.down.pending = c.pending ∧ c.state ≠ .leader := by
  obtain ⟨st, p, h, -, -, hp⟩ := c.down_eq
  rw [h]
  exact hp

end

/-! ## Terms received -/

theorem observe_of_le {t : Nat} (h : t ≤ c.term) : c.observe t = c := if_pos h

theorem observe_of_lt {t : Nat} (h : c.term < t) :
    c.observe t = ({ c with term := t }.resetVote).down := if_neg (by omega)

section

variable (c) (t : Nat)

@[simp] theorem observe_term : (c.observe t).term = max c.term t := by
  rcases Nat.lt_or_ge c.term t with h | h
  · rw [observe_of_lt h, down_term]
    exact (Nat.max_eq_right (Nat.le_of_lt h)).symm
  · rw [observe_of_le h, Nat.max_eq_left h]

@[simp] theorem observe_logs : (c.observe t).logs = c.logs := by
  rcases Nat.lt_or_ge c.term t with h | h
  · rw [observe_of_lt h, down_logs]
    rfl
  · rw [observe_of_le h]

@[simp] theorem observe_peers : (c.observe t).peers = c.peers := by
  rcases Nat.lt_or_ge c.term t with h | h
  · rw [observe_of_lt h, down_peers]
    rfl
  · rw [observe_of_le h]

theorem observe_pending : (c.observe t).pending = none ∨ (c.observe t).pending = c.pending := by
  rcases Nat.lt_or_ge c.term t with h | h
  · rw [observe_of_lt h]
    rcases down_pending ({ c with term := t }.resetVote) with hp | hp
    · exact .inl hp
    · exact .inr hp.1
  · rw [observe_of_le h]
    exact .inr rfl

@[simp] theorem discover_logs (request : AppendEntriesRequest) :
    (c.discover request).logs = c.logs := by
  unfold discover
  split <;> simp

@[simp] theorem discover_peers (request : AppendEntriesRequest) :
    (c.discover request).peers = c.peers := by
  unfold discover
  split <;> simp

end

/-! ## Elections -/

theorem elect_of_lt (h : c.voteReceived < c.majority) : c.elect = c := if_pos h

theorem elect_of_le (h : c.majority ≤ c.voteReceived) :
    c.elect = { c with
      peers := c.peers.map (Node.setMatchIndex ((c.logs.getLast?.map (·.id)).getD 0))
      state := if c.state = .candidate then .leader else c.state } := if_neg (by omega)

/-- An election touches the peers' indices and the state only. -/
theorem elect_eq (c : Core) :
    ∃ ps st, c.elect = { c with peers := ps, state := st } ∧
      ps.map (·.nodeId) = c.peers.map (·.nodeId) ∧
      (st = c.state ∨ c.state = .candidate ∧ st = .leader ∧ c.majority ≤ c.voteReceived) := by
  rcases Nat.lt_or_ge c.voteReceived c.majority with h | h
  · exact ⟨c.peers, c.state, elect_of_lt h, rfl, .inl rfl⟩
  · refine ⟨_, _, elect_of_le h, by simp [Node.setMatchIndex, Function.comp_def], ?_⟩
    split
    · exact .inr ⟨‹_›, rfl, h⟩
    · exact .inl rfl

section

variable (c)

@[simp] theorem elect_term : c.elect.term = c.term := by
  obtain ⟨ps, st, h, -⟩ := c.elect_eq; rw [h]

@[simp] theorem elect_votedFor : c.elect.votedFor = c.votedFor := by
  obtain ⟨ps, st, h, -⟩ := c.elect_eq; rw [h]

@[simp] theorem elect_voted : c.elect.voted = c.voted := by
  obtain ⟨ps, st, h, -⟩ := c.elect_eq; rw [h]

@[simp] theorem elect_voteReceived : c.elect.voteReceived = c.voteReceived := by
  obtain ⟨ps, st, h, -⟩ := c.elect_eq; rw [h]

@[simp] theorem elect_logs : c.elect.logs = c.logs := by
  obtain ⟨ps, st, h, -⟩ := c.elect_eq; rw [h]

@[simp] theorem elect_pending : c.elect.pending = c.pending := by
  obtain ⟨ps, st, h, -⟩ := c.elect_eq; rw [h]

@[simp] theorem elect_nodeId : c.elect.nodeId = c.nodeId := by
  obtain ⟨ps, st, h, -⟩ := c.elect_eq; rw [h]

@[simp] theorem elect_peerIds : c.elect.peers.map (·.nodeId) = c.peers.map (·.nodeId) := by
  obtain ⟨ps, st, h, hp, -⟩ := c.elect_eq; rw [h]; exact hp

end

theorem elect_voteRequests (c : Core) : c.elect.voteRequests = c.voteRequests := by
  by_cases h : c.voteReceived < c.majority
  · rw [elect_of_lt h]
  · rw [elect_of_le (by omega)]
    simp [voteRequests, Node.setMatchIndex]
    intros
    rfl

section

variable (c)

theorem term_le_nextTerm : c.term ≤ c.nextTerm := Nat.le_max_left _ _

theorem nextTerm_pos : 0 < c.nextTerm := by
  unfold nextTerm
  rcases Nat.eq_zero_or_pos c.term with h0 | h0
  · rw [h0]
    decide
  · exact Nat.lt_of_lt_of_le h0 (Nat.le_max_left _ _)

@[simp] theorem campaign_term : c.campaign.term = c.nextTerm := elect_term _

@[simp] theorem campaign_votedFor : c.campaign.votedFor = c.nodeId := elect_votedFor _

@[simp] theorem campaign_voted : c.campaign.voted = true := elect_voted _

@[simp] theorem campaign_voteReceived : c.campaign.voteReceived = 1 := elect_voteReceived _

@[simp] theorem campaign_logs : c.campaign.logs = c.logs := elect_logs _

@[simp] theorem campaign_pending : c.campaign.pending = c.pending := elect_pending _

@[simp] theorem campaign_nodeId : c.campaign.nodeId = c.nodeId := elect_nodeId _

@[simp] theorem campaign_peerIds :
    c.campaign.peers.map (·.nodeId) = c.peers.map (·.nodeId) := elect_peerIds _

end

/-! ## Pending commits -/

theorem current_of_none (h : c.pending = none) : c.current = none := by
  simp [current, h]

theorem current_of_eq {commit : PendingCommit} (h : c.pending = some commit)
    (hid : commit.log.id = c.logs.length) : c.current = some commit := by
  simp [current, h, hid]

theorem current_of_ne {commit : PendingCommit} (h : c.pending = some commit)
    (hid : commit.log.id ≠ c.logs.length) : c.current = none := by
  simp [current, h, hid]

theorem current_eq_some {commit : PendingCommit} :
    c.current = some commit ↔ c.pending = some commit ∧ commit.log.id = c.logs.length := by
  simp [current, Option.filter_eq_some_iff]

/-- Dropping a stale pending commit is idempotent. -/
theorem current_current (c : Core) : { c with pending := c.current }.current = c.current := by
  cases hc : c.current with
  | none => exact current_of_none rfl
  | some commit => exact current_of_eq rfl (current_eq_some.1 hc).2

theorem view_current (c : Core) : { c with pending := c.current }.view = c.view := by
  unfold view
  rw [current_current]

/-- The predecessor is filled in after the entry. -/
theorem appendRequest_eq (c : Core) (node : OtherNode) :
    ∃ i t, c.appendRequest node =
      { c.entryRequest node.nextIndex with prevLogIndex := i, prevLogTerm := t } := by
  unfold appendRequest
  split
  · exact ⟨_, _, rfl⟩
  · split <;> exact ⟨_, _, rfl⟩

theorem appendRequest_current (c : Core) (node : OtherNode) :
    { c with pending := c.current }.appendRequest node = c.appendRequest node := by
  unfold appendRequest entryRequest
  rw [view_current]

/-! ## Answers -/

/-- An answer changes the indices of a peer, not its id. -/
theorem map_updateIndex_nodeId (peers : List OtherNode) (id : Nat)
    (request : AppendEntriesRequest) (response : AppendEntriesResponse) :
    (peers.map fun node =>
      if node.nodeId = id then Node.updateIndex request response node else node).map (·.nodeId) =
      peers.map (·.nodeId) := by
  rw [List.map_map]
  apply List.map_congr_left
  intro node _
  simp only [Function.comp_apply, Node.updateIndex]
  split
  · split
    · rfl
    · split <;> rfl
  · rfl

/-- The count of results looks at the ids of the peers only. -/
theorem successCount_eq (peers : List OtherNode) (resultMap : Nat → Option Bool)
    (success : Bool) : Node.successCount peers resultMap success =
      1 + (peers.map (·.nodeId)).countP fun id => resultMap id = some success := by
  rw [List.countP_map]
  rfl

/-- Counting an answer touches the log and the pending commit only. -/
theorem count_eq (c : Core) (id commitIndex term : Nat) (success : Bool) :
    ∃ logs p, c.count id commitIndex term success = { c with logs := logs, pending := p } := by
  unfold count
  split
  · exact ⟨c.logs, c.pending, rfl⟩
  · split
    · exact ⟨_, _, rfl⟩
    · exact ⟨c.logs, _, rfl⟩

/-- An answer: the peer's indices, the term, then the count. -/
theorem appendEntriesResponse_eq (c : Core) (id : Nat) (request : AppendEntriesRequest)
    (response : AppendEntriesResponse) :
    ∃ logs p, c.appendEntriesResponse id request response =
      { (c.updatePeer id request response).observe response.term with
        logs := logs
        pending := p } := count_eq ..

@[simp] theorem updatePeer_term (id : Nat) (request : AppendEntriesRequest)
    (response : AppendEntriesResponse) : (c.updatePeer id request response).term = c.term := rfl

/-- A proposal touches the log and the pending commit only. -/
theorem commitCommand_eq (c : Core) (command : Option Command) (promise : Nat) :
    ∃ logs p, c.commitCommand command promise = { c with logs := logs, pending := p } := by
  unfold commitCommand
  split
  · exact ⟨c.logs, c.pending, rfl⟩
  split
  · exact ⟨_, c.pending, rfl⟩
  split
  · exact ⟨c.logs, c.pending, rfl⟩
  · exact ⟨c.logs, _, rfl⟩

/-! ## The cases of a step -/

/-- A request for a vote: of a stranger, refused, or granted. -/
theorem requestVote_cases (c : Core) (request : RequestVoteRequest) :
    c.requestVote request = ({}, c) ∨
    c.requestVote request = (⟨(c.observe request.term).term, false⟩, c.observe request.term) ∨
    (c.isValid request.candidateId = true ∧ (c.observe request.term).Grants request ∧
      c.requestVote request = (⟨(c.observe request.term).term, true⟩,
        { c.observe request.term with votedFor := request.candidateId, voted := true })) := by
  unfold requestVote
  cases hv : c.isValid request.candidateId with
  | false => exact .inl (if_pos rfl)
  | true =>
    rw [if_neg (by decide)]
    by_cases hg : (c.observe request.term).Grants request
    · exact .inr (.inr ⟨rfl, hg, by simp [vote, hg]⟩)
    · exact .inr (.inl (by simp [vote, hg]))

/-- The answer to one: of an older term or refused, of a newer term, or a vote. -/
theorem requestVoteResponse_cases (c : Core) (response : RequestVoteResponse) :
    c.requestVoteResponse response = c ∨
    c.requestVoteResponse response = c.observe response.term ∨
    (response = ⟨c.term, true⟩ ∧ c.requestVoteResponse response =
      elect { c with voteReceived := (c.voteReceived + 1) % 2 ^ 32 }) := by
  obtain ⟨t, g⟩ := response
  unfold requestVoteResponse
  simp only
  rcases Nat.lt_trichotomy t c.term with hlt | rfl | hgt
  · exact .inl (if_pos hlt)
  · cases g with
    | false => exact .inl (by simp)
    | true => exact .inr (.inr ⟨rfl, by simp⟩)
  · rw [if_neg (by omega), if_pos hgt]
    exact .inr (.inl rfl)

/-- A request of a member. -/
theorem appendEntries_of_valid {c : Core} {request : AppendEntriesRequest}
    (h : c.isValid request.leaderId = true) :
    c.appendEntries request = (⟨c.term, (Logs.append request c.logs).1⟩,
      { c.discover request with logs := (Logs.append request c.logs).2 }) := by
  unfold appendEntries
  rw [if_neg (by simp [h])]

/-- A request with an entry: of a stranger, of an older term, or of a leader. -/
theorem appendEntries_cases (c : Core) (request : AppendEntriesRequest) :
    c.appendEntries request = ({}, c) ∨
    (request.term < c.term ∧ c.appendEntries request =
      (⟨c.term, (Logs.append request c.logs).1⟩,
        { c with logs := (Logs.append request c.logs).2 })) ∨
    (c.term ≤ request.term ∧ c.appendEntries request =
      (⟨c.term, (Logs.append request c.logs).1⟩,
        { (c.observe request.term).down with logs := (Logs.append request c.logs).2 })) := by
  unfold appendEntries discover
  split
  · exact .inl rfl
  by_cases hlt : request.term < c.term
  · exact .inr (.inl ⟨hlt, by simp [hlt]⟩)
  · exact .inr (.inr ⟨by omega, by simp [hlt]⟩)

/-- Terms never decrease. -/
theorem Step.term_le {c' : Core} {input : Input} {es : List Effect} (h : c.Step input c' es) :
    c.term ≤ c'.term := by
  cases h with
  | idleElection => exact Nat.le_refl _
  | campaign _ => rw [campaign_term]; exact c.term_le_nextTerm
  | idleBroadcast => exact Nat.le_refl _
  | broadcast _ => exact Nat.le_refl _
  | commitCommand command promise =>
    obtain ⟨logs, p, he⟩ := c.commitCommand_eq command promise
    rw [he]
  | appendEntries request =>
    rcases c.appendEntries_cases request with he | ⟨-, he⟩ | ⟨-, he⟩ <;> rw [he]
    simp
  | requestVote request =>
    rcases c.requestVote_cases request with he | he | ⟨-, -, he⟩ <;> rw [he]
    · simp
    · simp
  | appendEntriesResponse id request response =>
    obtain ⟨logs, p, he⟩ := c.appendEntriesResponse_eq id request response
    rw [he]
    simp
  | requestVoteResponse response =>
    rcases c.requestVoteResponse_cases response with he | he | ⟨-, he⟩ <;> rw [he]
    · simp
    · simp

/-! ## Messages -/

/-- Whether an effect is a message. -/
def Message : Effect → Prop
  | .sendAppendEntries _ _ => True
  | .sendRequestVote _ _ => True
  | .replyAppendEntries _ _ => True
  | .replyRequestVote _ _ => True
  | _ => False

/-- What a step can send: the requests of the timers, and the answer to a request. -/
inductive Sends (c : Core) : Input → Core → Effect → Prop
  | requestVote {node : OtherNode} : node ∈ c.campaign.peers →
      Sends c .electionTimer c.campaign (.sendRequestVote node.nodeId c.campaign.voteRequest)
  | appendEntries {node : OtherNode} : c.state = .leader → node ∈ c.peers →
      Sends c .broadcastTimer { c with pending := c.current }
        (.sendAppendEntries node.nodeId (c.appendRequest node))
  | appendEntriesResponse (request : AppendEntriesRequest) :
      Sends c (.appendEntries request) (c.appendEntries request).2
        (.replyAppendEntries request (c.appendEntries request).1)
  | requestVoteResponse (request : RequestVoteRequest) :
      Sends c (.requestVote request) (c.requestVote request).2
        (.replyRequestVote request (c.requestVote request).1)

theorem not_message_completeNotices {promise : Nat} {log : LogEntry} {e : Effect}
    (he : e ∈ completeNotices promise log) : ¬ Message e := by
  simp only [completeNotices, List.mem_cons, List.not_mem_nil, or_false] at he
  rcases he with rfl | rfl <;> exact id

theorem not_message_appendNotices {request : AppendEntriesRequest} {e : Effect}
    (he : e ∈ c.appendNotices request) : ¬ Message e := by
  unfold appendNotices at he
  split at he
  · rcases Logs.mem_appendNotices he with ⟨id, rfl⟩ | ⟨id, command, rfl⟩ <;> exact fun hm => hm
  · cases he

/-- **The messages of a step.** -/
theorem Step.sends {c' : Core} {input : Input} {es : List Effect} (h : c.Step input c' es)
    {e : Effect} (he : e ∈ es) (hm : Message e) : Sends c input c' e := by
  cases h with
  | idleElection => cases he
  | campaign _ =>
    obtain ⟨node, hn, rfl⟩ := List.mem_map.1 he
    exact .requestVote hn
  | idleBroadcast => cases he
  | broadcast hl =>
    obtain ⟨node, hn, rfl⟩ := List.mem_map.1 he
    exact .appendEntries hl hn
  | commitCommand command promise =>
    unfold commitNotices at he
    split at he
    · exact absurd hm (not_message_completeNotices he)
    · cases he
  | appendEntries request =>
    rcases List.mem_append.1 he with he | he
    · exact absurd hm (not_message_appendNotices he)
    · obtain rfl := List.mem_singleton.1 he
      exact .appendEntriesResponse request
  | requestVote request =>
    obtain rfl := List.mem_singleton.1 he
    exact .requestVoteResponse request
  | appendEntriesResponse id request response =>
    unfold countNotices at he
    split at he
    · cases he
    split at he
    · exact absurd hm (not_message_completeNotices he)
    · cases he
  | requestVoteResponse response => cases he

end Foros.Core
