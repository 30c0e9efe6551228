import Foros.Raft.Proof.Converge
import Foros.Raft.Proof.Receive

/-!
# Exchanges between two nodes

What one node builds and another handles: a vote request (`vote_up_to_date`), the request of
`OtherNode::broadcast` (`append_asserts_term`, `entry_round_trip`), and the answers to a heartbeat
(`heartbeat_frame`) and to a pending entry (`acknowledgement_counted`). Each is stated for every
pair of nodes, with the exact condition under which the exchange does what it is for.
-/

namespace Foros

/-! ## Votes -/

/-- The order of `(term, id)` on last entries. -/
def LogEntry.UpToDate (c v : LogEntry) : Prop := v.term < c.term ∨ v.term = c.term ∧ v.id ≤ c.id

namespace Core

/-- A node that has heard of the request's term is free to vote in it when the term is new to it. -/
theorem grants_observe (c : Core) (request : RequestVoteRequest) :
    (c.observe request.term).Grants request ↔
      (c.term < request.term ∨ c.term = request.term ∧ c.voted = false) ∧
        ∀ log ∈ c.logs.getLast?, log.id ≤ request.lastDataIndex := by
  unfold Grants
  rw [observe_term, observe_logs]
  rcases Nat.lt_or_ge c.term request.term with hlt | hge
  · have hvoted : (c.observe request.term).voted = false := by
      rw [observe_of_lt hlt, down_voted]
      rfl
    simp only [hvoted, hlt, Nat.max_eq_right (Nat.le_of_lt hlt), ge_iff_le, Nat.le_refl, true_and,
      true_or]
  · rw [observe_of_le hge, Nat.max_eq_left hge]
    constructor
    · rintro ⟨hle, hvoted, hlast⟩
      exact ⟨.inr ⟨Nat.le_antisymm hle hge, hvoted⟩, hlast⟩
    · rintro ⟨hlt | ⟨heq, hvoted⟩, hlast⟩
      · omega
      · exact ⟨Nat.le_of_eq heq, hvoted, hlast⟩

end Core

namespace Node

/-- The candidate is a member, and the voter is free to vote in its term. -/
def MayVote (candidate voter : Node) : Prop :=
  voter.isValidNode candidate.nodeId = true ∧
    (voter.store.currentTerm < candidate.store.currentTerm ∨
      voter.store.currentTerm = candidate.store.currentTerm ∧ voter.store.voted = false)

/-- **When a vote is granted**: the terms of the last entries play no part. -/
theorem voteGranted_iff {candidate voter : Node} {c v : LogEntry}
    (hc : candidate.store.lastLog = some c) (hv : voter.store.lastLog = some v) :
    (onRequestVoteRequested .plain candidate.voteRequest voter).1.voteGranted = true ↔
      MayVote candidate voter ∧ v.id ≤ c.id := by
  have hindex : candidate.voteRequest.lastDataIndex = c.id := by simp [voteRequest, hc]
  have hlast : voter.core.logs.getLast? = some v := hv
  rw [(onRequestVoteRequested_spec _ _).1]
  unfold Core.requestVote MayVote
  change (if voter.core.isValid candidate.nodeId = false then _ else _ :
    RequestVoteResponse × Core).1.voteGranted = true ↔ _
  rw [isValidNode_core]
  cases hm : voter.core.isValid candidate.nodeId with
  | false => simp
  | true =>
    rw [if_neg (by decide), decide_eq_true_iff, Core.grants_observe, hlast, hindex]
    simp only [Option.mem_some_iff, forall_eq', true_and]
    rfl

end Node

/-- **When votes go to logs that are at least as up to date.** For a candidate and a voter with
last entries `c` and `v`: a vote that is granted goes to a log that is at least as up to date
exactly when, in case the voter may vote and `c` is as far as `v`, the term of `c` is not older. -/
theorem vote_up_to_date (candidate voter : Node) {c v : LogEntry}
    (hc : candidate.store.lastLog = some c) (hv : voter.store.lastLog = some v) :
    ((Node.onRequestVoteRequested .plain candidate.voteRequest voter).1.voteGranted = true →
      c.UpToDate v) ↔ (Node.MayVote candidate voter → v.id ≤ c.id → v.term ≤ c.term) := by
  rw [Node.voteGranted_iff hc hv]
  unfold LogEntry.UpToDate
  constructor
  · intro h hmay hid
    have := h ⟨hmay, hid⟩
    omega
  · rintro h ⟨hmay, hid⟩
    have := h hmay hid
    omega

/-- Node `me` of five after its inputs. -/
def Node.oneOfFive (me : Nat) (inputs : List Input) : Node :=
  inputs.foldl (fun n input => n.run .plain input) (Node.create .plain [0, 1, 2, 3, 4] me .empty)

/-- Node 1 holds two entries of the leader of term 1, and its election timer expires. -/
def Node.olderLog (timeouts : Nat) : Node :=
  oneOfFive 1 ([.appendEntries ⟨1, 0, 0, 0, [7], 0⟩, .appendEntries ⟨1, 0, 0, 1, [8], 1⟩] ++
    List.replicate timeouts .electionTimer)

/-- Node 3 holds one entry of the leader of term 1 and one of the leader of term 2, and its
election timer expires. -/
def Node.newerLog (timeouts : Nat) : Node :=
  oneOfFive 3 ([.appendEntries ⟨1, 0, 0, 0, [7], 0⟩, .appendEntries ⟨2, 2, 0, 1, [9], 1⟩] ++
    List.replicate timeouts .electionTimer)

/-- Node 1 grants its vote to node 3. -/
theorem vote_up_to_date_newer :
    (Node.onRequestVoteRequested .plain (Node.newerLog 2).voteRequest
      (Node.olderLog 0)).1.voteGranted = true ∧
    LogEntry.UpToDate ⟨1, 2, some [9]⟩ ⟨1, 1, some [8]⟩ := by
  have hgranted : (Node.onRequestVoteRequested .plain (Node.newerLog 2).voteRequest
      (Node.olderLog 0)).1.voteGranted = true := by decide +kernel
  refine ⟨hgranted, ?_⟩
  exact (vote_up_to_date (Node.newerLog 2) (Node.olderLog 0) (by decide +kernel)
    (by decide +kernel)).2 (fun _ _ => by decide) hgranted

/-- Node 3 grants its vote to node 1, whose last entry is of an older term. -/
theorem vote_not_up_to_date :
    ¬ ∀ (candidate voter : Node) (c v : LogEntry), candidate.store.lastLog = some c →
      voter.store.lastLog = some v →
      (Node.onRequestVoteRequested .plain candidate.voteRequest voter).1.voteGranted = true →
      c.UpToDate v := by
  intro h
  have hup := h (Node.olderLog 3) (Node.newerLog 0) ⟨1, 1, some [8]⟩ ⟨1, 2, some [9]⟩
    (by decide +kernel) (by decide +kernel) (by decide +kernel)
  rcases hup with hlt | ⟨heq, -⟩
  · exact absurd hlt (by decide)
  · exact absurd heq (by decide)

/-! ## The request of a broadcast -/

namespace Node

/-- The request that `OtherNode::broadcast` builds when `Context::broadcast` calls it for `node`. -/
def requestFor (node : OtherNode) (n : Node) : AppendEntriesRequest :=
  let (pending, n) := n.getPendingCommit
  let log := match pending with
    | some commit => some commit.log
    | none => n.store.lastLog
  let request : AppendEntriesRequest := { term := n.store.currentTerm, leaderId := n.nodeId }
  let (request, n) := fillEntry log node.nextIndex request n
  (fillPrev node.nextIndex request n).1

variable {n : Node}

theorem requestFor_eq (hid : n.LastId) (node : OtherNode) :
    n.requestFor node = n.core.appendRequest node := by
  have hset := settled_settle n
  have hentry := fillEntry_eq hset hid node.nextIndex
  rw [lastView_settle] at hentry
  have hbuilt : n.requestFor node =
      let r := fillEntry n.lastView node.nextIndex
        { term := n.settle.store.currentTerm, leaderId := n.settle.nodeId } n.settle
      (fillPrev node.nextIndex r.1 r.2).1 := by
    unfold requestFor
    rw [getPendingCommit_eq]
    rfl
  rw [hbuilt, hentry]
  simp only
  rw [fillPrev_eq hset]
  exact Core.appendRequest_current n.core node

end Node

/-! ## The term of a request -/

namespace Core

variable {c : Core} {node : OtherNode}

/-- A request has the term of the entry it carries, and the leader's own without one. -/
theorem appendRequest_term (c : Core) (node : OtherNode) :
    (c.appendRequest node).term = ((c.view[node.nextIndex]?).map (·.term)).getD c.term := by
  obtain ⟨i, t, hr⟩ := c.appendRequest_eq node
  rw [hr]
  unfold entryRequest
  cases c.view[node.nextIndex]? <;> rfl

theorem down_follower_of_ne (hs : c.state ≠ .standby) : c.down.state = .follower := by
  cases h : c.state with
  | standby => exact absurd h hs
  | follower => rw [down_follower h, h]
  | candidate => rw [down_candidate h]
  | leader => rw [down_leader h]

/-- A leader that is heard of makes a started node a follower in its term. -/
theorem discover_follower {request : AppendEntriesRequest} (hs : c.state ≠ .standby)
    (ht : c.term ≤ request.term) :
    (c.discover request).state = .follower ∧ (c.discover request).term = request.term := by
  have hobserve : (c.observe request.term).state ≠ .standby := by
    rcases Nat.lt_or_ge c.term request.term with hlt | hge
    · have hdown : (({ c with term := request.term } : Core).resetVote).down.state = .follower :=
        down_follower_of_ne hs
      rw [observe_of_lt hlt, hdown]
      decide
    · rw [observe_of_le hge]
      exact hs
  unfold discover
  rw [if_neg (by omega), down_term, observe_term]
  exact ⟨down_follower_of_ne hobserve, Nat.max_eq_right ht⟩

end Core

namespace Node

theorem raise_broadcastReceived (event : Event) (n : Node) :
    (raise .plain event n).broadcastReceived = n.broadcastReceived := by
  cases ht : transitionMap n.state event with
  | none => rw [raise_none ht]
  | some next =>
    cases next with
    | none => rw [raise_stay ht]
    | some next =>
      obtain ⟨q, et, bt, -, he⟩ := raise_eq ht
      rw [he]

theorem appendRequested_broadcastReceived (request : AppendEntriesRequest) (n : Node) :
    (appendRequested .plain request n).2.broadcastReceived = n.broadcastReceived := by
  have hpush : ∀ m : Node, (pushRequested .plain request m).2.broadcastReceived =
      m.broadcastReceived := by
    intro m
    unfold pushRequested
    simp only
    split <;> rfl
  have hcommit : (requestLocalCommit .plain request n).2.broadcastReceived =
      n.broadcastReceived := by
    unfold requestLocalCommit
    split
    · exact hpush n
    · split
      · rfl
      · split
        · exact hpush _
        · exact hpush n
  unfold appendRequested
  split
  · rfl
  split
  · exact hcommit
  split
  · rfl
  split
  · rfl
  · exact hcommit

/-- A request of a member: the heartbeat flag is set unless the request is of an older term. -/
theorem onAppendEntriesRequested_broadcastReceived {request : AppendEntriesRequest} {n : Node}
    (hm : n.isValidNode request.leaderId = true) :
    (onAppendEntriesRequested .plain request n).2.broadcastReceived =
      if request.term < n.store.currentTerm then n.broadcastReceived else true := by
  unfold onAppendEntriesRequested
  rw [if_neg (by simp [hm])]
  simp only
  rw [appendRequested_broadcastReceived]
  split
  · rfl
  · rw [raise_broadcastReceived]

/-- The node is a follower in term `t` and has heard of its leader. -/
def Follows (t : Nat) (n : Node) : Prop :=
  n.store.currentTerm = t ∧ n.state = .follower ∧ n.broadcastReceived = true

theorem follows_onAppendEntriesRequested {env : Env} {request : AppendEntriesRequest} {n : Node}
    (t : Nat) (henv : env.Sparing n.clusterSize) (hm : n.isValidNode request.leaderId = true)
    (hs : n.state ≠ .standby) :
    (onAppendEntriesRequested env request n).2.Follows t ↔
      if request.term < n.store.currentTerm then n.Follows t else request.term = t := by
  obtain ⟨-, hnear⟩ := near_onAppendEntriesRequested henv request
  have hflag : (onAppendEntriesRequested env request n).2.broadcastReceived =
      (onAppendEntriesRequested .plain request n).2.broadcastReceived := by rw [hnear.eq]
  have hcore := (onAppendEntriesRequested_spec request n).2.core
  rw [Core.appendEntries_of_valid (show n.core.isValid request.leaderId = true from hm)] at hcore
  have hterm : (onAppendEntriesRequested .plain request n).2.store.currentTerm =
      (n.core.discover request).term := congrArg Core.term hcore
  have hstate : (onAppendEntriesRequested .plain request n).2.state =
      (n.core.discover request).state := congrArg Core.state hcore
  unfold Follows
  rw [hflag, hnear.store, hnear.state, hterm, hstate, onAppendEntriesRequested_broadcastReceived hm]
  split
  · rename_i hlt
    have hold : n.core.discover request = n.core := if_pos hlt
    rw [hold]
    rfl
  · rename_i hge
    obtain ⟨h1, h2⟩ := Core.discover_follower (c := n.core) hs (Nat.le_of_not_lt hge)
    rw [h1, h2]
    simp

end Node

/-- **When a request asserts the leader's term.** The peer follows the leader in the leader's own
term exactly when the request carries no entry, or one of that term, or an older one that the peer
does not notice because it follows the leader already. The callbacks of the peer's user are any that
spare it, as calls of `commit_command` do. -/
theorem append_asserts_term {env : Env} (leader peer : Node) (node : OtherNode)
    (henv : env.Sparing peer.clusterSize) (hi : Logs.Indexed leader.store.logs)
    (hm : peer.isValidNode leader.nodeId = true) (hs : peer.state ≠ .standby)
    (ht : peer.store.currentTerm ≤ leader.store.currentTerm) :
    (Node.onAppendEntriesRequested env (leader.requestFor node) peer).2.Follows
        leader.store.currentTerm ↔
      ∀ entry, leader.core.view[node.nextIndex]? = some entry →
        entry.term = leader.store.currentTerm ∨
        entry.term < leader.store.currentTerm ∧ peer.Follows leader.store.currentTerm := by
  have hid : leader.LastId := fun _ hl => hi.getLast hl
  have hterm := leader.core.appendRequest_term node
  have hsender := leader.core.appendRequest_leaderId node
  rw [← Node.requestFor_eq hid] at hterm hsender
  have hm' : peer.isValidNode (leader.requestFor node).leaderId = true := by
    rw [hsender]
    exact hm
  rw [Node.follows_onAppendEntriesRequested _ henv hm' hs]
  cases hv : leader.core.view[node.nextIndex]? with
  | none =>
    rw [hv] at hterm
    have hown : (leader.requestFor node).term = leader.store.currentTerm := hterm
    rw [hown, if_neg (by omega)]
    simp
  | some entry =>
    rw [hv] at hterm
    have hentry : (leader.requestFor node).term = entry.term := hterm
    rw [hentry]
    simp only [Option.some.injEq, forall_eq']
    split
    · rename_i hlt
      constructor
      · intro hf
        exact .inr ⟨by have := hf.1; omega, hf⟩
      · rintro (heq | ⟨-, hf⟩)
        · omega
        · exact hf
    · rename_i hge
      constructor
      · exact .inl
      · rintro (heq | ⟨hlt, hf⟩)
        · exact heq
        · have := hf.1
          omega

/-- Node 0 holds an entry of the leader of term 1, is elected in term 2, and hears from node 1 that
its heartbeat did not match. -/
def Node.newLeader (inputs : List Input) : Node :=
  oneOfFive 0 ([.appendEntries ⟨1, 4, 0, 0, [7], 0⟩, .electionTimer, .electionTimer,
    .requestVoteResponse ⟨2, true⟩, .requestVoteResponse ⟨2, true⟩,
    .appendEntriesResponse 1 ⟨2, 0, 0, 1, [], 0⟩ ⟨2, false⟩] ++ inputs)

theorem Node.newLeader_indexed {inputs : List Input}
    (h : (newLeader inputs).store.logs = [⟨0, 1, some [7]⟩]) :
    Logs.Indexed (newLeader inputs).store.logs := by
  rw [h]
  exact Logs.indexed_nil.push rfl

/-- A command of term 2 makes node 2 follow node 0, for which it has voted. -/
theorem append_asserts_term_pending :
    (Node.onAppendEntriesRequested .plain
      ((Node.newLeader [.commitCommand (some [9])]).requestFor ⟨2, 1, 0⟩)
      (Node.oneOfFive 2 [.requestVote ⟨2, 0, 0, 1⟩])).2.Follows
        (Node.newLeader [.commitCommand (some [9])]).store.currentTerm := by
  refine (append_asserts_term _ _ _ (Env.plain_sparing _)
    (Node.newLeader_indexed (by decide +kernel)) (by decide +kernel) (by decide +kernel)
    (by decide +kernel)).2 fun entry hentry => .inl ?_
  have hview : (Node.newLeader [.commitCommand (some [9])]).core.view[1]? =
      some ⟨1, 2, some [9]⟩ := by decide +kernel
  have hterm : (Node.newLeader [.commitCommand (some [9])]).store.currentTerm = 2 := by
    decide +kernel
  rw [hview] at hentry
  cases hentry
  exact hterm.symm

/-- Node 1, which has voted for node 0 in term 2, takes the entry of term 1 for a message of a
deposed leader. -/
theorem append_asserts_older_term :
    ¬ ∀ (leader peer : Node) (node : OtherNode), leader.state = .leader →
      Logs.Indexed leader.store.logs →
      (∀ entry ∈ leader.core.view, entry.term ≤ leader.store.currentTerm) →
      node ∈ leader.otherNodes → peer.isValidNode leader.nodeId = true →
      peer.state ≠ .standby → peer.store.currentTerm ≤ leader.store.currentTerm →
      (Node.onAppendEntriesRequested .plain (leader.requestFor node) peer).2.Follows
        leader.store.currentTerm := by
  intro h
  have hview : (Node.newLeader []).core.view = [⟨0, 1, some [7]⟩] := by decide +kernel
  have hterm : (Node.newLeader []).store.currentTerm = 2 := by decide +kernel
  have hfollows := h (Node.newLeader []) (Node.oneOfFive 1 [.requestVote ⟨2, 0, 0, 1⟩]) ⟨1, 0, 0⟩
    (by decide +kernel) (Node.newLeader_indexed (by decide +kernel)) ?_ (by decide +kernel)
    (by decide +kernel) (by decide +kernel) (by decide +kernel)
  · have hflag : (Node.onAppendEntriesRequested .plain ((Node.newLeader []).requestFor ⟨1, 0, 0⟩)
        (Node.oneOfFive 1 [.requestVote ⟨2, 0, 0, 1⟩])).2.broadcastReceived = false := by
      decide +kernel
    rw [hfollows.2.2] at hflag
    cases hflag
  · rw [hview, hterm]
    decide

/-! ## The transfer of an entry -/

/-- The follower answers with success, and its log is the view up to `k`. -/
def Node.Receives (env : Env) (request : AppendEntriesRequest) (V : List LogEntry) (k : Nat)
    (follower : Node) : Prop :=
  (onAppendEntriesRequested env request follower).1.success = true ∧
    (onAppendEntriesRequested env request follower).2.store.logs = V.take (k + 1)

theorem Core.view_indexed {c : Core} (hi : Logs.Indexed c.logs) : Logs.Indexed c.view := by
  unfold Core.view
  cases hc : c.current with
  | none => simpa using hi
  | some commit => exact hi.push (Core.current_eq_some.1 hc).2

/-- A log that ends right below the entry of a request takes it in. -/
theorem FromView.append_end {V : List LogEntry} {request : AppendEntriesRequest}
    (h : FromView V request) (hne : request.entries ≠ []) (hi : Logs.Indexed V) :
    Logs.append request (V.take request.leaderCommit) =
      (true, V.take (request.leaderCommit + 1)) := by
  have hagree : Logs.Agree V V := fun _ _ _ _ _ _ => rfl
  rcases h.accepted_or_rejected hne (hi.take request.leaderCommit)
    (hagree.of_prefix (List.take_prefix ..)) with hacc | ⟨-, -, hlack, -⟩
  · exact hacc
  · exact absurd List.prefix_rfl hlack

/-- **When an entry survives its transfer.** For every leader with its view, and every follower
that has the view below `k`, the request for `k` brings the follower entry `k` exactly when the
command of that entry is not empty. The callbacks of the follower's user are any that spare it, as
calls of `commit_command` do. -/
theorem entry_round_trip {env : Env} (leader follower : Node) (node : OtherNode)
    (henv : env.Sparing follower.clusterSize) (hi : Logs.Indexed leader.store.logs)
    (hcmd : ∀ e ∈ leader.core.view, e.command.isSome)
    (hk : node.nextIndex < leader.core.view.length)
    (hlog : follower.store.logs = leader.core.view.take node.nextIndex)
    (hm : follower.isValidNode leader.nodeId = true) :
    follower.Receives env (leader.requestFor node) leader.core.view node.nextIndex ↔
      ∀ entry, leader.core.view[node.nextIndex]? = some entry → entry.command ≠ some [] := by
  have hview : Logs.Indexed leader.core.view := Core.view_indexed hi
  have hfrom := Core.fromView_appendRequest hview hcmd node
  obtain ⟨i, t, hr⟩ := leader.core.appendRequest_eq node
  have hsender := leader.core.appendRequest_leaderId node
  rw [Node.requestFor_eq fun _ hl => hi.getLast hl]
  obtain ⟨entry, hv⟩ : ∃ entry, leader.core.view[node.nextIndex]? = some entry :=
    ⟨_, List.getElem?_eq_getElem hk⟩
  have hentries : (leader.core.appendRequest node).entries = entry.command.getD [] := by
    rw [hr]
    simp only [Core.entryRequest, hv]
  have hcommit : (leader.core.appendRequest node).leaderCommit = node.nextIndex := by
    rw [hr]
    simp only [Core.entryRequest, hv]
    exact hview _ _ hv
  generalize leader.core.appendRequest node = request at *
  have hm' : follower.isValidNode request.leaderId = true := by
    rw [hsender]
    exact hm
  obtain ⟨hres, hlogs, -⟩ := Node.onAppendEntriesRequested_log henv hm'
  unfold Node.Receives
  rw [hres, hlogs, hlog, hv]
  constructor
  · rintro ⟨hsuccess, -⟩ entry' heq hempty
    cases heq
    apply (Logs.accepted_of_append (hview.take _) hsuccess).1.1
    rw [hentries, hempty]
    rfl
  · intro hne
    have hcarries : request.entries ≠ [] := by
      obtain ⟨data, hd⟩ := Option.isSome_iff_exists.1 (hcmd entry (List.mem_of_getElem? hv))
      rw [hentries, hd]
      rintro rfl
      exact hne entry rfl hd
    have happend := hfrom.append_end hcarries hview
    rw [hcommit] at happend
    rw [happend]
    exact ⟨rfl, rfl⟩

/-- Node 1 takes in the first entry of node 0, which is of an older term than the leader's. -/
theorem entry_round_trip_first :
    (Node.oneOfFive 1 []).Receives .plain ((Node.newLeader []).requestFor ⟨1, 0, 0⟩)
      (Node.newLeader []).core.view 0 := by
  have hview : (Node.newLeader []).core.view = [⟨0, 1, some [7]⟩] := by decide +kernel
  refine (entry_round_trip (Node.newLeader []) (Node.oneOfFive 1 []) ⟨1, 0, 0⟩
    (Env.plain_sparing _) (Node.newLeader_indexed (by decide +kernel)) ?_ ?_ ?_
    (by decide +kernel)).2 ?_
  · rw [hview]
    decide
  · rw [hview]
    decide
  · decide +kernel
  · rw [hview]
    rintro entry heq
    cases heq
    decide

/-- Node 0 commits the empty command: the request that carries it is a heartbeat to node 1. -/
theorem empty_command_not_transferred :
    ¬ ∀ (leader follower : Node) (node : OtherNode), Logs.Indexed leader.store.logs →
      (∀ e ∈ leader.core.view, e.command.isSome) → node.nextIndex < leader.core.view.length →
      follower.store.logs = leader.core.view.take node.nextIndex →
      follower.isValidNode leader.nodeId = true →
      follower.Receives .plain (leader.requestFor node) leader.core.view node.nextIndex := by
  intro h
  have hview : (Node.newLeader [.commitCommand (some [])]).core.view =
      [⟨0, 1, some [7]⟩, ⟨1, 2, some []⟩] := by decide +kernel
  have hreceives := h (Node.newLeader [.commitCommand (some [])])
    (Node.oneOfFive 1 [.appendEntries ⟨1, 4, 0, 0, [7], 0⟩]) ⟨1, 1, 0⟩
    (Node.newLeader_indexed (by decide +kernel)) (by rw [hview]; decide) (by rw [hview]; decide)
    (by decide +kernel) (by decide +kernel)
  have hfailure : (Node.onAppendEntriesRequested .plain
      ((Node.newLeader [.commitCommand (some [])]).requestFor ⟨1, 1, 0⟩)
      (Node.oneOfFive 1 [.appendEntries ⟨1, 4, 0, 0, [7], 0⟩])).1.success = false := by
    decide +kernel
  rw [hreceives.1] at hfailure
  cases hfailure

/-! ## Answers to heartbeats -/

/-- The pending commit with its results, its promise and the log are as before. -/
structure Node.KeepsPending (n n' : Node) : Prop where
  pendingCommit : n'.pendingCommit = n.pendingCommit
  promise : ∀ promise response, .resolved promise response ∈ n'.trace →
    .resolved promise response ∈ n.trace
  logs : n'.store.logs = n.store.logs

namespace Node

/-- An answer of no newer term moves the peer's indices and is then counted. -/
theorem onAppendEntriesResponse_of_le {env : Env} {n : Node} {id : Nat}
    {request : AppendEntriesRequest} {response : AppendEntriesResponse}
    (h : response.term ≤ n.store.currentTerm) :
    onAppendEntriesResponse env id request response n =
      handlePendingCommitResponse env id request.leaderCommit response.term response.success
        { n with otherNodes := n.otherNodes.map fun node =>
            if node.nodeId = id then updateIndex request response node else node } := by
  have hcount : ∀ m : Node, response.term ≤ m.store.currentTerm →
      onBroadcastResponse env id request.leaderCommit response.term response.success m =
        handlePendingCommitResponse env id request.leaderCommit response.term
          response.success m := by
    intro m hm
    unfold onBroadcastResponse
    rw [updateTerm_of_le hm]
    simp only [ite_self]
  exact hcount _ h

theorem KeepsPending.refl (n : Node) : n.KeepsPending n := ⟨rfl, fun _ _ h => h, rfl⟩

/-- An answer about `commitIndex` is not about the pending commit, or is recorded for it already and
does not complete it. -/
def Unmoved (id commitIndex term : Nat) (success : Bool) (n : Node) : Prop :=
  ∀ commit, n.pendingCommit = some commit → commit.log.id = commitIndex → commit.log.term = term →
    commit.resultMap id = some success ∧
      successCount n.otherNodes commit.resultMap success < n.majority

/-- Such an answer leaves the pending commit alone, and no callback runs. -/
theorem Unmoved.keepsPending {id commitIndex term : Nat} {success : Bool} {n : Node}
    (h : n.Unmoved id commitIndex term success) (env : Env) :
    n.KeepsPending (handlePendingCommitResponse env id commitIndex term success n) := by
  unfold handlePendingCommitResponse
  cases hp : n.pendingCommit with
  | none => exact .refl n
  | some commit =>
    simp only
    by_cases hne : commit.log.id ≠ commitIndex ∨ commit.log.term ≠ term
    · rw [if_pos hne]
      exact .refl n
    · rw [if_neg hne]
      obtain ⟨hid, hterm⟩ : commit.log.id = commitIndex ∧ commit.log.term = term := by
        simpa only [not_or, ne_eq, not_not] using hne
      obtain ⟨hrecorded, hlt⟩ := h commit hp hid hterm
      have hmap : Function.update commit.resultMap id (some success) = commit.resultMap := by
        rw [← hrecorded, Function.update_eq_self]
      rw [hmap, if_pos hlt]
      exact ⟨hp.symm, fun _ _ hm => hm, rfl⟩

/-- Where the user's callbacks do nothing, only such an answer does. -/
theorem keepsPending_iff (id commitIndex term : Nat) (success : Bool) (n : Node) :
    n.KeepsPending (handlePendingCommitResponse .plain id commitIndex term success n) ↔
      n.Unmoved id commitIndex term success := by
  refine ⟨fun hkeeps commit hp hid hterm => ?_, fun h => h.keepsPending .plain⟩
  have hsame := hkeeps.pendingCommit
  unfold handlePendingCommitResponse at hsame
  rw [hp] at hsame
  simp only [hid, hterm, ne_eq, not_true_eq_false, or_self, if_false] at hsame
  split at hsame
  · -- the answer is recorded
    rename_i hlt
    have hmap : Function.update commit.resultMap id (some success) = commit.resultMap :=
      congrArg PendingCommit.resultMap (Option.some.inj hsame)
    have hrecorded := congrFun hmap id
    rw [Function.update_self] at hrecorded
    rw [hmap] at hlt
    exact ⟨hrecorded.symm, hlt⟩
  · -- the commit is completed
    cases hsame

end Node

/-- **When the answer to a heartbeat leaves the pending commit alone.** A request without an entry
says that it is about index 0. Its answer, in no newer term, leaves the pending commit alone exactly
when that commit is not the one of index 0 in the term of the answer, or has this answer recorded
already and is not completed by it. No callback runs then, so this is so for every user. The
converse is for callbacks that do nothing: a call of `commit_command` from the response callback
could leave a commit pending again. -/
theorem heartbeat_frame (sender leader : Node) (node : OtherNode)
    (response : AppendEntriesResponse) (hi : Logs.Indexed sender.store.logs)
    (hnone : sender.core.view[node.nextIndex]? = none)
    (hterm : response.term ≤ leader.store.currentTerm) :
    (leader.KeepsPending (Node.onAppendEntriesResponse .plain node.nodeId (sender.requestFor node)
        response leader) ↔
      leader.Unmoved node.nodeId 0 response.term response.success) ∧
    (leader.Unmoved node.nodeId 0 response.term response.success → ∀ env,
      leader.KeepsPending (Node.onAppendEntriesResponse env node.nodeId (sender.requestFor node)
        response leader)) := by
  have hcommit : (sender.requestFor node).leaderCommit = 0 := by
    obtain ⟨i, t, hr⟩ := sender.core.appendRequest_eq node
    rw [Node.requestFor_eq fun _ hl => hi.getLast hl, hr]
    simp only [Core.entryRequest, hnone]
  have hrun : ∀ env, Node.onAppendEntriesResponse env node.nodeId (sender.requestFor node)
      response leader = _ := fun env => Node.onAppendEntriesResponse_of_le hterm
  simp only [hrun, hcommit]
  have hpeers := Core.map_updateIndex_nodeId leader.otherNodes node.nodeId (sender.requestFor node)
    response
  let moved : Node := { leader with
    otherNodes := leader.otherNodes.map fun peer =>
      if peer.nodeId = node.nodeId then Node.updateIndex (sender.requestFor node) response peer
      else peer }
  have hsame : moved.Unmoved node.nodeId 0 response.term response.success ↔
      leader.Unmoved node.nodeId 0 response.term response.success := by
    simp only [Node.Unmoved, Core.successCount_eq, moved, hpeers]
  have hframe : ∀ n', moved.KeepsPending n' ↔ leader.KeepsPending n' := fun n' =>
    ⟨fun h => ⟨h.pendingCommit, h.promise, h.logs⟩, fun h => ⟨h.pendingCommit, h.promise, h.logs⟩⟩
  rw [← hsame]
  refine ⟨?_, fun h env => (hframe _).1 (h.keepsPending env)⟩
  rw [← hframe]
  exact Node.keepsPending_iff ..

/-- The commit of index 1 does not hear the answer to a heartbeat sent before it. -/
theorem heartbeat_frame_second_entry :
    (Node.newLeader [.commitCommand (some [9])]).KeepsPending
      (Node.onAppendEntriesResponse .plain 2 ((Node.newLeader []).requestFor ⟨2, 1, 0⟩) ⟨2, false⟩
        (Node.newLeader [.commitCommand (some [9])])) := by
  refine (heartbeat_frame (Node.newLeader []) _ ⟨2, 1, 0⟩ ⟨2, false⟩
    (Node.newLeader_indexed (by decide +kernel)) (by decide +kernel) (by decide +kernel)).1.2 ?_
  intro commit hp hid
  have hpending : (Node.newLeader [.commitCommand (some [9])]).pendingCommit.map (·.log.id) =
      some 1 := by decide +kernel
  rw [hp, Option.map_some, hid] at hpending
  cases hpending

/-- Node 0 of five is elected in term 1 with an empty log. -/
def Node.firstLeader (inputs : List Input) : Node :=
  oneOfFive 0 ([.electionTimer, .requestVoteResponse ⟨1, true⟩, .requestVoteResponse ⟨1, true⟩] ++
    inputs)

/-- The answer of node 1 to the first heartbeat is recorded as its answer to the first command. -/
theorem heartbeat_answer_counted :
    ¬ ∀ (sender leader : Node) (node : OtherNode) (response : AppendEntriesResponse),
      leader.state = .leader → Logs.Indexed sender.store.logs → node ∈ sender.otherNodes →
      sender.core.view[node.nextIndex]? = none → response.term ≤ leader.store.currentTerm →
      leader.KeepsPending (Node.onAppendEntriesResponse .plain node.nodeId (sender.requestFor node)
        response leader) := by
  intro h
  have hnil : (Node.firstLeader []).store.logs = [] := by decide +kernel
  have hkeeps := h (Node.firstLeader []) (Node.firstLeader [.commitCommand (some [9])]) ⟨1, 1, 0⟩
    ⟨1, false⟩ (by decide +kernel) (by rw [hnil]; exact Logs.indexed_nil) (by decide +kernel)
    (by decide +kernel) (by decide +kernel)
  have hafter : (Node.onAppendEntriesResponse .plain 1 ((Node.firstLeader []).requestFor ⟨1, 1, 0⟩)
      ⟨1, false⟩ (Node.firstLeader [.commitCommand (some [9])])).pendingCommit.map
        (·.resultMap 1) = some (some false) := by decide +kernel
  have hbefore : (Node.firstLeader [.commitCommand (some [9])]).pendingCommit.map
      (·.resultMap 1) = some none := by decide +kernel
  rw [hkeeps.pendingCommit, hbefore] at hafter
  cases hafter

/-! ## Answers to a pending entry -/

/-- The request carries the entry. -/
def AppendEntriesRequest.Carries (request : AppendEntriesRequest) (entry : LogEntry) : Prop :=
  request.leaderCommit = entry.id ∧ request.term = entry.term ∧ entry.command = some request.entries

namespace Node

/-- The success of peer `id` is recorded for the commit, and completes it when that makes a
majority of successes. -/
def Acknowledged (id : Nat) (commit : PendingCommit) (n n' : Node) : Prop :=
  if successCount n.otherNodes (Function.update commit.resultMap id (some true)) true <
      n.majority then
    ∃ commit', n'.pendingCommit = some commit' ∧ commit'.log = commit.log ∧
      commit'.promise = commit.promise ∧ commit'.resultMap id = some true
  else
    n'.pendingCommit = none ∧
      .resolved commit.promise ⟨commit.log.id, commit.log.command, true⟩ ∈ n'.trace

/-- A broadcast to a peer whose turn it is carries the pending entry. -/
theorem requestFor_carries {n : Node} {commit : PendingCommit} {node : OtherNode}
    (hi : Logs.Indexed n.store.logs) (hc : n.core.current = some commit)
    (hcmd : commit.log.command.isSome) (hnext : node.nextIndex = commit.log.id) :
    (n.requestFor node).Carries commit.log := by
  have hid : commit.log.id = n.core.logs.length := (Core.current_eq_some.1 hc).2
  have hview : n.core.view[node.nextIndex]? = some commit.log := by
    unfold Core.view
    rw [hc, hnext, hid]
    simp
  obtain ⟨i, t, hr⟩ := n.core.appendRequest_eq node
  obtain ⟨data, hd⟩ := Option.isSome_iff_exists.1 hcmd
  rw [requestFor_eq fun _ hl => hi.getLast hl, hr]
  unfold AppendEntriesRequest.Carries
  simp only [Core.entryRequest, hview, hd, Option.getD_some, and_self]

/-- A request is answered with the term from before it was handled. -/
theorem response_of_success {env : Env} {request : AppendEntriesRequest} {n : Node}
    (hs : (onAppendEntriesRequested env request n).1.success = true) :
    (onAppendEntriesRequested env request n).1 = ⟨n.store.currentTerm, true⟩ := by
  have hterm : (onAppendEntriesRequested env request n).1.term = n.store.currentTerm := by
    unfold onAppendEntriesRequested at hs ⊢
    split at hs
    · cases hs
    · rename_i hm
      rw [if_neg hm]
  generalize (onAppendEntriesRequested env request n).1 = response at hs hterm
  obtain ⟨term, success⟩ := response
  cases hs
  cases hterm
  rfl

/-- A success is counted for the pending commit when its term is that commit's. -/
theorem acknowledged_iff (ok : Nat → Bool) {n : Node} {commit : PendingCommit}
    (hp : n.pendingCommit = some commit) (id term : Nat) :
    n.Acknowledged id commit
        (handlePendingCommitResponse (.faulty ok) id commit.log.id term true n) ↔
      term = commit.log.term ∨
        commit.resultMap id = some true ∧
          successCount n.otherNodes commit.resultMap true < n.majority := by
  unfold Acknowledged handlePendingCommitResponse
  simp only [hp]
  by_cases hterm : commit.log.term = term
  · -- the answer is counted
    simp only [hterm, ne_eq, not_true_eq_false, or_self, if_false, true_or, iff_true]
    split
    · exact ⟨_, rfl, rfl, rfl, Function.update_self ..⟩
    · exact ⟨rfl, by simp [completeCommit, resolve, emit, Env.faulty, Env.plain]⟩
  · -- the answer is dropped
    simp only [ne_eq, not_true_eq_false, hterm, not_false_eq_true, or_true, if_true,
      Ne.symm hterm, false_or]
    split
    · rename_i hlt
      constructor
      · rintro ⟨commit', heq, -, -, hrecorded⟩
        rw [hp] at heq
        cases heq
        rw [← hrecorded, Function.update_eq_self] at hlt
        exact ⟨hrecorded, hlt⟩
      · rintro ⟨hrecorded, -⟩
        exact ⟨commit, hp, rfl, rfl, hrecorded⟩
    · rename_i hge
      constructor
      · rintro ⟨hnone, -⟩
        rw [hp] at hnone
        cases hnone
      · rintro ⟨hrecorded, hlt⟩
        rw [← hrecorded, Function.update_eq_self] at hge
        exact absurd hlt hge

end Node

/-- **When an acknowledgement reaches its commit.** A follower takes in the leader's pending entry
and says so, and the leader hears it with the commit still pending. The answer is counted for the
commit exactly when the follower was in the leader's term before it handled the request, or when it
is recorded already without a majority. -/
theorem acknowledgement_counted {env : Env} {ok : Nat → Bool} {commit : PendingCommit}
    {request : AppendEntriesRequest} (leader follower : Node) (id : Nat)
    (hp : leader.pendingCommit = some commit)
    (hterm : commit.log.term = leader.store.currentTerm) (hc : request.Carries commit.log)
    (hf : follower.store.currentTerm ≤ leader.store.currentTerm)
    (hs : (Node.onAppendEntriesRequested env request follower).1.success = true) :
    leader.Acknowledged id commit (Node.onAppendEntriesResponse (.faulty ok) id request
        (Node.onAppendEntriesRequested env request follower).1 leader) ↔
      follower.store.currentTerm = leader.store.currentTerm ∨
        commit.resultMap id = some true ∧
          Node.successCount leader.otherNodes commit.resultMap true < leader.majority := by
  rw [Node.response_of_success hs, Node.onAppendEntriesResponse_of_le hf, hc.1]
  have hpeers := Core.map_updateIndex_nodeId leader.otherNodes id request
    ⟨follower.store.currentTerm, true⟩
  have hcount := Node.acknowledged_iff ok (n := { leader with
    otherNodes := leader.otherNodes.map fun node =>
      if node.nodeId = id then
        Node.updateIndex request ⟨follower.store.currentTerm, true⟩ node
      else node }) hp id follower.store.currentTerm
  unfold Node.Acknowledged at hcount ⊢
  simp only [Core.successCount_eq, hpeers, hterm] at hcount
  simp only [Core.successCount_eq]
  exact hcount

/-- Node 2, which has voted for node 0 in term 2, is the first to take in the command of term 2. -/
theorem acknowledgement_counted_voter :
    ∃ commit, (Node.newLeader [.commitCommand (some [9])]).pendingCommit = some commit ∧
      (Node.newLeader [.commitCommand (some [9])]).Acknowledged 2 commit
        (Node.onAppendEntriesResponse (.faulty fun _ => true) 2 ⟨2, 0, 0, 1, [9], 1⟩
          (Node.onAppendEntriesRequested .plain ⟨2, 0, 0, 1, [9], 1⟩
            (Node.oneOfFive 2 [.appendEntries ⟨1, 4, 0, 0, [7], 0⟩, .requestVote ⟨2, 0, 0, 1⟩])).1
          (Node.newLeader [.commitCommand (some [9])])) := by
  have hlog : (Node.newLeader [.commitCommand (some [9])]).pendingCommit.map (·.log) =
      some ⟨1, 2, some [9]⟩ := by decide +kernel
  obtain ⟨commit, hp, hentry⟩ := Option.map_eq_some_iff.1 hlog
  refine ⟨commit, hp, (acknowledgement_counted _ _ 2 hp ?_ ?_ ?_ ?_).2 (.inl ?_)⟩
  · rw [hentry]
    decide +kernel
  · rw [hentry]
    exact ⟨rfl, rfl, rfl⟩
  all_goals decide +kernel

/-- Node 3 hears of term 2 from the request itself, and its success does not count. -/
theorem acknowledgement_lost :
    ¬ ∀ (leader follower : Node) (node : OtherNode) (commit : PendingCommit),
      leader.state = .leader → leader.core.current = some commit →
      commit.log.term = leader.store.currentTerm → node ∈ leader.otherNodes →
      (leader.requestFor node).Carries commit.log →
      follower.store.currentTerm ≤ leader.store.currentTerm →
      (Node.onAppendEntriesRequested .plain (leader.requestFor node) follower).1.success = true →
      leader.Acknowledged node.nodeId commit
        (Node.onAppendEntriesResponse .plain node.nodeId (leader.requestFor node)
          (Node.onAppendEntriesRequested .plain (leader.requestFor node) follower).1 leader) := by
  intro h
  have hlog : (Node.newLeader [.commitCommand (some [9])]).core.current.map (·.log) =
      some ⟨1, 2, some [9]⟩ := by decide +kernel
  obtain ⟨commit, hc, hentry⟩ := Option.map_eq_some_iff.1 hlog
  have hack := h (Node.newLeader [.commitCommand (some [9])])
    (Node.oneOfFive 3 [.appendEntries ⟨1, 4, 0, 0, [7], 0⟩]) ⟨3, 1, 0⟩ commit (by decide +kernel)
    hc (by rw [hentry]; decide +kernel) (by decide +kernel)
    (Node.requestFor_carries (Node.newLeader_indexed (by decide +kernel)) hc (by rw [hentry]; rfl)
      (by rw [hentry])) (by decide +kernel) (by decide +kernel)
  have hafter : (Node.onAppendEntriesResponse .plain 3
      ((Node.newLeader [.commitCommand (some [9])]).requestFor ⟨3, 1, 0⟩)
      (Node.onAppendEntriesRequested .plain
        ((Node.newLeader [.commitCommand (some [9])]).requestFor ⟨3, 1, 0⟩)
        (Node.oneOfFive 3 [.appendEntries ⟨1, 4, 0, 0, [7], 0⟩])).1
      (Node.newLeader [.commitCommand (some [9])])).pendingCommit.map (·.resultMap 3) =
        some none := by decide +kernel
  unfold Node.Acknowledged at hack
  split at hack
  · obtain ⟨commit', hp, -, -, hrecorded⟩ := hack
    rw [hp, Option.map_some, hrecorded] at hafter
    cases hafter
  · rw [hack.1] at hafter
    cases hafter

end Foros
