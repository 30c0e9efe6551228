import Foros.Raft.Proof.Crash

/-!
# A one-node cluster is a list

A node that is alone elects itself at the first election timeout after each start, stays leader
until it crashes, and answers `commit_command` at once. Over all its processes the commands it has
acknowledged are its log, in order (`one_node_is_a_list`). The database holds the log at every
moment, so a restart reads the same log back.
-/

namespace Foros

/-- The responses that promises are fulfilled with. -/
def responses (es : List Effect) : List CommandCommitResponse :=
  es.filterMap fun
    | .resolved _ response => some response
    | _ => none

/-- The commands that are acknowledged, in order. -/
def acknowledged (es : List Effect) : List Command :=
  (responses es).filterMap fun response => if response.result then response.command else none

/-- What a node without peers is given: timeouts, commands that are not null, and requests of any
senders. It sends no requests, so no answers come. -/
def Input.Solo : Input → Prop
  | .commitCommand command => command.isSome
  | .appendEntriesResponse _ _ _ => False
  | .requestVoteResponse _ => False
  | _ => True

instance (input : Input) : Decidable input.Solo := by
  refine Input.casesOn input ?_ ?_ ?_ ?_ ?_ ?_ ?_ <;> intros <;> dsimp only [Input.Solo] <;>
    infer_instance

/-- Callbacks, and restarts between them. -/
def LifeEvent.Solo : LifeEvent → Prop
  | .handle input => input.Solo
  | .crash _ k => k = 0

instance (event : LifeEvent) : Decidable event.Solo := by
  refine LifeEvent.casesOn event ?_ ?_ <;> intros <;> dsimp only [LifeEvent.Solo] <;> infer_instance

/-- What a user sees of a one-node cluster. -/
structure Life.IsList (me : Nat) (l : Life) : Prop where
  size : l.node.getCommandsSize = (acknowledged l.effects).length
  command : ∀ i, l.node.getCommand i = (acknowledged l.effects)[i]?
  not_reverted : ∀ id, .reverted id ∉ l.effects
  elected : (l.node.run .plain .electionTimer).isLeader = true
  stays : ∀ input, input.Solo → l.node.isLeader = true →
    (l.node.run .plain input).isLeader = true
  waits : ∀ input, input.Solo → input ≠ .electionTimer → l.node.isLeader = false →
    (l.node.run .plain input).isLeader = false
  restarted : (Node.create .plain [me] me l.node.store.db).isLeader = false
  commits : ∀ command, l.node.isLeader = true →
    responses (l.node.run .plain (.commitCommand (some command))).trace =
      [⟨(acknowledged l.effects).length, some command, true⟩]
  refuses : ∀ command, l.node.isLeader = false →
    responses (l.node.run .plain (.commitCommand (some command))).trace =
      [⟨(acknowledged l.effects).length, none, false⟩] ∧
    (l.node.run .plain (.commitCommand (some command))).store = l.node.store ∧
    (l.node.run .plain (.commitCommand (some command))).core = l.node.core

/-! ## Effects -/

theorem responses_append (es es' : List Effect) :
    responses (es ++ es') = responses es ++ responses es' := List.filterMap_append

theorem acknowledged_append (es es' : List Effect) :
    acknowledged (es ++ es') = acknowledged es ++ acknowledged es' := by
  unfold acknowledged
  rw [responses_append, List.filterMap_append]

/-- Nothing visible, nothing acknowledged or reverted. -/
theorem acknowledged_of_visible {es : List Effect} (h : es.filter Effect.visible = []) :
    acknowledged es = [] ∧ ∀ id, .reverted id ∉ es := by
  rw [List.filter_eq_nil_iff] at h
  refine ⟨?_, fun id hm => h _ hm rfl⟩
  unfold acknowledged
  apply List.filterMap_eq_nil_iff.2
  intro response hr
  obtain ⟨e, he, heq⟩ := List.mem_filterMap.1 hr
  cases e with
  | resolved p r =>
    cases heq
    have := h _ he
    simp only [Effect.visible] at this
    rw [if_neg this]
  | _ => cases heq

namespace Node

/-- A node without peers between callbacks. -/
structure Alone (n : Node) : Prop where
  ok : n.Ok
  size : n.clusterSize = 1
  majority : n.majority = 1
  peers : n.otherNodes = []
  pending : n.pendingCommit = none
  state : n.state = .leader ∨
    n.state = .follower ∧ n.electionTimer = true ∧ n.broadcastReceived = false

/-- What a callback does to a node without peers, besides the answer it gives. -/
structure SoloStep (n n' : Node) : Prop where
  alone : n'.Alone
  logs : n'.store.logs.map (·.command) =
    n.store.logs.map (·.command) ++ (acknowledged n'.trace).map some
  not_reverted : ∀ id, .reverted id ∉ n'.trace

/-- A callback that keeps what a node without peers is, and acknowledges and reverts nothing. -/
structure Still (n n' : Node) : Prop where
  core : n'.core = n.core
  store : n'.store = n.store
  timers : n.state = .leader ∨ n'.electionTimer = n.electionTimer ∧
    n'.broadcastReceived = n.broadcastReceived
  acknowledged : acknowledged n'.trace = []
  not_reverted : ∀ id, .reverted id ∉ n'.trace

theorem Still.soloStep {n n' : Node} (hs : Still n n') (h : n.Alone) : SoloStep n n' := by
  have hid : n'.nodeId = n.nodeId := congrArg Core.nodeId hs.core
  have hpeers : n'.otherNodes = n.otherNodes := congrArg Core.peers hs.core
  have hp : n'.pendingCommit = n.pendingCommit := congrArg Core.pending hs.core
  have hstate : n'.state = n.state := congrArg Core.state hs.core
  refine ⟨⟨⟨?_, ?_, ?_, ?_⟩, ?_, ?_, hpeers.trans h.peers, hp.trans h.pending, ?_⟩, ?_,
    hs.not_reverted⟩
  · rw [hs.store]
    exact h.ok.store
  · rw [hid]
    exact h.ok.nodeId_lt
  · rw [hpeers]
    exact h.ok.peers_lt
  · rw [hp, hs.store]
    exact h.ok.pending
  · exact (congrArg Core.clusterSize hs.core).trans h.size
  · exact (congrArg Core.majority hs.core).trans h.majority
  · rw [hstate]
    rcases hs.timers with hl | ⟨ht, hb⟩
    · exact .inl hl
    · rw [ht, hb]
      exact h.state
  · rw [hs.store, hs.acknowledged]
    simp

section

variable {n : Node} (h : n.Alone)
include h

theorem Alone.isLeader_eq : n.isLeader = false ↔
    n.state = .follower ∧ n.electionTimer = true ∧ n.broadcastReceived = false := by
  rcases h.state with hs | hs
  · simp [isLeader, hs]
  · simp [isLeader, hs]

/-! ## Elections -/

/-- A follower that is alone is elected at once. -/
theorem Alone.run_electionTimer (hf : n.isLeader = false) :
    (run .plain .electionTimer n).core = n.core.campaign ∧
      (run .plain .electionTimer n).visible = [] ∧
      (run .plain .electionTimer n).core.state = .leader := by
  obtain ⟨hs, ht, hb⟩ := h.isLeader_eq.1 hf
  have hrun : run .plain .electionTimer n = handle .plain .timedout { n with trace := [] } := by
    unfold run dispatch onElectionTimer
    simp only [ht, hb, if_true, Bool.false_eq_true, if_false]
  have hspec := handle_timedout_follower (n := { n with trace := [] }) hs
  have hreq : n.core.campaign.voteRequests = [] := by
    have hids := n.core.campaign_peerIds
    rw [show n.core.peers = [] from h.peers, List.map_nil, List.map_eq_nil_iff] at hids
    unfold Core.voteRequests
    rw [hids, List.map_nil]
  have hmaj : n.core.majority ≤ 1 := Nat.le_of_eq h.majority
  have hstate : n.core.campaign.state = .leader := by
    unfold Core.campaign
    rw [Core.elect_of_le hmaj]
    rfl
  rw [hrun, hspec.core, hspec.visible]
  exact ⟨rfl, hreq, hstate⟩

omit h in
theorem still_electionTimer (hl : n.isLeader = true) :
    Still n (run .plain .electionTimer n) := by
  have hs : n.state = .leader := by simpa [isLeader] using hl
  have hrun : run .plain .electionTimer n = { n with trace := [] } ∨
      run .plain .electionTimer n = { n with trace := [], broadcastReceived := false } := by
    unfold run dispatch onElectionTimer handle handleWith
    simp only [hs, transitionMap]
    split
    · split
      · exact .inr rfl
      · exact .inl rfl
    · exact .inl rfl
  rcases hrun with hrun | hrun <;> rw [hrun]
  · exact ⟨rfl, rfl, .inl hs, rfl, fun id hm => by cases hm⟩
  · exact ⟨rfl, rfl, .inl hs, rfl, fun id hm => by cases hm⟩

/-- Nothing is pending, and there is nobody to broadcast to. -/
theorem Alone.still_broadcastTimer : Still n (run .plain .broadcastTimer n) := by
  have hrun : run .plain .broadcastTimer n = { n with trace := [] } := by
    have hsettle : ({ n with trace := [] } : Node).settle = { n with trace := [] } := by
      unfold settle
      rw [Core.current_of_none h.pending, ← h.pending]
    have hreq : n.core.appendRequests = [] := by
      unfold Core.appendRequests
      rw [show n.core.peers = [] from h.peers, List.map_nil]
    have hbroadcast : broadcast { n with trace := [] } = { n with trace := [] } := by
      rw [broadcast_eq (n := { n with trace := [] }) h.ok.lastId, hsettle]
      change ({ n with trace := [] ++ n.core.appendRequests } : Node) = _
      rw [hreq, List.append_nil]
    unfold run dispatch handle handleWith
    rcases h.state with hs | ⟨hs, -, -⟩
    · rw [hs] at hbroadcast
      simp only [hs, transitionMap, onEvent, ite_eq_right_iff]
      exact fun _ => hbroadcast
    · simp only [hs, transitionMap, ite_self]
  rw [hrun]
  exact ⟨rfl, rfl, .inr ⟨rfl, rfl⟩, rfl, fun id hm => by cases hm⟩

/-- A follower's timeout leads it to leadership with the log it has. -/
theorem Alone.soloStep_electionTimer (hf : n.isLeader = false) :
    SoloStep n (run .plain .electionTimer n) := by
  obtain ⟨hc, hv, hs⟩ := h.run_electionTimer hf
  obtain ⟨hack, hrev⟩ := acknowledged_of_visible hv
  have hmaj : n.core.majority ≤ 1 := Nat.le_of_eq h.majority
  have hcamp : n.core.campaign.clusterSize = n.core.clusterSize ∧
      n.core.campaign.majority = n.core.majority ∧ n.core.campaign.peers = [] := by
    unfold Core.campaign
    rw [Core.elect_of_le hmaj, show n.core.peers = [] from h.peers]
    exact ⟨rfl, rfl, rfl⟩
  rw [← hc] at hcamp
  have hlogs : (run .plain .electionTimer n).store.logs = n.store.logs := by
    change (run .plain .electionTimer n).core.logs = n.core.logs
    rw [hc, Core.campaign_logs]
  have hp : (run .plain .electionTimer n).core.pending = none := by
    rw [hc, Core.campaign_pending]
    exact h.pending
  have hok : (run .plain .electionTimer n).Ok := by
    refine h.ok.run trivial ?_
    rw [hlogs]
    exact h.ok.store.length_lt
  refine ⟨⟨hok, hcamp.1.trans h.size, hcamp.2.1.trans h.majority, hcamp.2.2, hp, .inl hs⟩, ?_, hrev⟩
  rw [hlogs, hack]
  simp

/-! ## Requests -/

/-- A request of anyone is answered and changes nothing. -/
theorem Alone.still_appendEntries (request : AppendEntriesRequest) :
    Still n (run .plain (.appendEntries request) n) := by
  have hv : ({ n with trace := [] } : Node).isValidNode request.leaderId = false := by
    simp [isValidNode, h.peers]
  have hrun : run .plain (.appendEntries request) n =
      { n with trace := [.replyAppendEntries request {}] } := by
    unfold run dispatch onAppendEntriesRequested
    simp only [hv, if_true]
    rfl
  rw [hrun]
  exact ⟨rfl, rfl, .inr ⟨rfl, rfl⟩, rfl, by simp⟩

theorem Alone.still_requestVote (request : RequestVoteRequest) :
    Still n (run .plain (.requestVote request) n) := by
  have hv : ({ n with trace := [] } : Node).isValidNode request.candidateId = false := by
    simp [isValidNode, h.peers]
  have hrun : run .plain (.requestVote request) n =
      { n with trace := [.replyRequestVote request {}] } := by
    unfold run dispatch onRequestVoteRequested
    simp only [hv, if_true]
    rfl
  rw [hrun]
  exact ⟨rfl, rfl, .inr ⟨rfl, rfl⟩, rfl, by simp⟩

/-! ## Commands -/

/-- A command to the leader goes to the end of the log. -/
theorem Alone.commitCommand_leader (command : Command) (hl : n.isLeader = true) :
    (run .plain (.commitCommand (some command)) n).core =
        { n.core with logs := n.core.logs ++ [n.core.proposal (some command)] } ∧
      ∃ puts : List (String × Bytes), (run .plain (.commitCommand (some command)) n).trace =
        (puts.map fun p => .put p.1 p.2) ++ [.committed n.store.logsSize (some command),
          .resolved n.promises ⟨n.store.logsSize, some command, true⟩] := by
  constructor
  · have hs : n.state = .leader := by simpa [isLeader] using hl
    have hstate : ¬ n.core.state ≠ .leader := not_not.2 hs
    have hsize : n.core.clusterSize ≤ 1 := Nat.le_of_eq h.size
    apply (commitCommand_spec (some command) { n with trace := [] }).core.trans
    change n.core.commitCommand (some command) n.promises = _
    unfold Core.commitCommand
    rw [if_neg hstate, if_pos hsize,
      Logs.push_accepted (l := n.core.proposal (some command)) rfl rfl]
  · have hlead :
        ¬ ({ n with promises := n.promises + 1, trace := [] } : Node).isLeader = false := by
      change ¬ n.isLeader = false
      simp [hl]
    have hsize : n.clusterSize ≤ 1 := Nat.le_of_eq h.size
    refine ⟨pushPuts ⟨n.store.logsSize, n.store.currentTerm, some command⟩ command, ?_⟩
    unfold run dispatch commitCommand
    simp only
    rw [if_neg hlead, if_pos hsize]
    unfold completeCommit
    rw [onStore_pushLog rfl rfl]
    simp only [resolve, invokeCommitCallback, emit, Env.plain, stored, List.append_assoc]
    rfl

omit h in
theorem commitCommand_follower (command : Command) (hl : n.isLeader = false) :
    run .plain (.commitCommand (some command)) n =
      { n with
        promises := n.promises + 1
        trace := [.resolved n.promises ⟨n.store.logsSize, none, false⟩] } := by
  have hlead : ({ n with trace := [], promises := n.promises + 1 } : Node).isLeader = false := hl
  unfold run dispatch commitCommand
  simp only [hlead, if_true]
  rfl

omit h in
theorem still_commitCommand (command : Command) (hl : n.isLeader = false) :
    Still n (run .plain (.commitCommand (some command)) n) := by
  rw [commitCommand_follower command hl]
  exact ⟨rfl, rfl, .inr ⟨rfl, rfl⟩, rfl, by simp⟩

theorem Alone.responses_commitCommand (command : Command) (hl : n.isLeader = true) :
    responses (run .plain (.commitCommand (some command)) n).trace =
      [⟨n.store.logsSize, some command, true⟩] := by
  obtain ⟨-, puts, ht⟩ := h.commitCommand_leader command hl
  have hputs : responses (puts.map fun p => .put p.1 p.2) = [] := by
    simp [responses]
  rw [ht, responses_append, hputs]
  rfl

theorem Alone.soloStep_commitCommand (command : Command) (hl : n.isLeader = true)
    (hlen : (run .plain (.commitCommand (some command)) n).store.logs.length < 2 ^ 64) :
    SoloStep n (run .plain (.commitCommand (some command)) n) := by
  obtain ⟨hc, puts, ht⟩ := h.commitCommand_leader command hl
  have hs : n.state = .leader := by simpa [isLeader] using hl
  refine ⟨⟨h.ok.run trivial hlen, ?_, ?_, ?_, ?_, .inl ?_⟩, ?_, fun id hm => ?_⟩
  · exact (congrArg Core.clusterSize hc).trans h.size
  · exact (congrArg Core.majority hc).trans h.majority
  · exact (congrArg Core.peers hc).trans h.peers
  · exact (congrArg Core.pending hc).trans h.pending
  · exact (congrArg Core.state hc).trans hs
  · have hlogs : (run .plain (.commitCommand (some command)) n).store.logs =
        n.store.logs ++ [n.core.proposal (some command)] := congrArg Core.logs hc
    have hack : acknowledged (run .plain (.commitCommand (some command)) n).trace = [command] := by
      unfold acknowledged
      rw [h.responses_commitCommand command hl]
      rfl
    rw [hlogs, hack, List.map_append]
    rfl
  · rw [ht] at hm
    simp at hm

/-! ## Callbacks -/

/-- What is neither an election of a follower nor a command to a leader. -/
theorem Alone.still {input : Input} (hin : input.Solo)
    (he : n.isLeader = false → input ≠ .electionTimer)
    (hc : n.isLeader = true → ∀ command, input ≠ .commitCommand command) :
    Still n (run .plain input n) := by
  cases input with
  | electionTimer =>
    cases hl : n.isLeader with
    | true => exact still_electionTimer hl
    | false => exact absurd rfl (he hl)
  | broadcastTimer => exact h.still_broadcastTimer
  | commitCommand command =>
    obtain ⟨command, rfl⟩ := Option.isSome_iff_exists.1 hin
    cases hl : n.isLeader with
    | true => exact absurd rfl (hc hl _)
    | false => exact still_commitCommand command hl
  | appendEntries request => exact h.still_appendEntries request
  | requestVote request => exact h.still_requestVote request
  | appendEntriesResponse id request response => exact hin.elim
  | requestVoteResponse response => exact hin.elim

/-- **One callback of a node without peers.** -/
theorem Alone.soloStep {input : Input} (hin : input.Solo)
    (hlen : (run .plain input n).store.logs.length < 2 ^ 64) :
    SoloStep n (run .plain input n) := by
  by_cases he : n.isLeader = false ∧ input = .electionTimer
  · obtain ⟨hl, rfl⟩ := he
    exact h.soloStep_electionTimer hl
  by_cases hc : n.isLeader = true ∧ ∃ command, input = .commitCommand command
  · obtain ⟨hl, command, rfl⟩ := hc
    obtain ⟨command, rfl⟩ := Option.isSome_iff_exists.1 hin
    exact h.soloStep_commitCommand command hl hlen
  refine (h.still hin (fun hl hi => he ⟨hl, hi⟩) fun hl command hi => ?_).soloStep h
  exact hc ⟨hl, command, hi⟩

/-- Leadership changes at an election timeout alone. -/
theorem Alone.isLeader_run {input : Input} (hin : input.Solo) :
    (run .plain input n).isLeader = (decide (input = .electionTimer) || n.isLeader) := by
  by_cases he : n.isLeader = false ∧ input = .electionTimer
  · obtain ⟨hl, rfl⟩ := he
    have hs : (run .plain .electionTimer n).state = .leader := (h.run_electionTimer hl).2.2
    simp [isLeader, hs]
  by_cases hc : n.isLeader = true ∧ ∃ command, input = .commitCommand command
  · obtain ⟨hl, command, rfl⟩ := hc
    obtain ⟨command, rfl⟩ := Option.isSome_iff_exists.1 hin
    have hs : (run .plain (.commitCommand (some command)) n).state = n.state :=
      congrArg Core.state (h.commitCommand_leader command hl).1
    simp [isLeader, hs]
  have hstill := h.still hin (fun hl hi => he ⟨hl, hi⟩) fun hl command hi => hc ⟨hl, command, hi⟩
  have hs : (run .plain input n).state = n.state := congrArg Core.state hstill.core
  have hl : (run .plain input n).isLeader = n.isLeader := by simp [isLeader, hs]
  rw [hl]
  cases hlead : n.isLeader with
  | true => simp
  | false => simpa [hlead] using he

end

/-! ## Restarts -/

/-- A process that starts on the database of `s`. -/
theorem create_alone {s : ContextStore} {me : Nat} (hs : s.Ok) (hme : me < 2 ^ 32) :
    (create .plain [me] me s.db).Alone ∧ (create .plain [me] me s.db).store.logs = s.logs := by
  have hcore := (create_spec hs.holds [me] me).1
  have hpeers : ∀ k, initializeOtherNodes [me] me k = [] := by simp [initializeOtherNodes]
  refine ⟨⟨create_ok hs hme ?_, ?_, ?_, ?_, ?_, .inr ⟨?_, rfl, rfl⟩⟩, ?_⟩
  · simpa using hme
  · exact congrArg Core.clusterSize hcore
  · exact (congrArg Core.majority hcore).trans (by simp)
  · exact (congrArg Core.peers hcore).trans (hpeers _)
  · exact congrArg Core.pending hcore
  · exact congrArg Core.state hcore
  · exact congrArg Core.logs hcore

end Node

/-! ## Lives -/

namespace Life

variable {me : Nat} {l l' : Life} {event : LifeEvent}

/-- The commands of the log are those acknowledged so far, and none was reverted. -/
structure Solo (l : Life) : Prop where
  node : l.node.Alone
  logs : l.node.store.logs.map (·.command) = (acknowledged l.effects).map some
  not_reverted : ∀ id, .reverted id ∉ l.effects

theorem Solo.step (h : l.Solo) (hme : me < 2 ^ 32) (hev : event.Solo)
    (hs : Life.step [me] me l event = some l') : l'.Solo := by
  unfold Life.step at hs
  simp only at hs
  split at hs
  · rename_i hlen
    cases event with
    | handle input =>
      obtain ⟨-, hs⟩ := Option.ite_none_left_eq_some.1 hs
      cases hs
      have hstep := h.node.soloStep hev hlen
      refine ⟨hstep.alone, ?_, fun id hm => ?_⟩
      · rw [acknowledged_append, List.map_append, ← h.logs]
        exact hstep.logs
      · rcases List.mem_append.1 hm with hm | hm
        · exact h.not_reverted id hm
        · exact hstep.not_reverted id hm
    | crash input k =>
      obtain rfl : k = 0 := hev
      cases hs
      obtain ⟨halone, hlogs⟩ := Node.create_alone h.node.ok.store hme
      simp only [List.take_zero, List.append_nil, Node.puts, List.filterMap_nil]
      exact ⟨halone, (congrArg _ hlogs).trans h.logs, h.not_reverted⟩
  · cases hs

theorem Solo.init (hme : me < 2 ^ 32) : (system [me] me).init.Solo := by
  obtain ⟨halone, hlogs⟩ := Node.create_alone ContextStore.empty_ok hme
  rw [ContextStore.empty_db] at halone hlogs
  refine ⟨halone, ?_, fun id hm => by cases hm⟩
  change (Node.create .plain [me] me .empty).store.logs.map (·.command) = []
  rw [hlogs]
  rfl

theorem Solo.length (h : l.Solo) : l.node.store.logs.length = (acknowledged l.effects).length := by
  have := congrArg List.length h.logs
  simpa using this

theorem Solo.isList (h : l.Solo) : l.IsList me where
  size := h.length
  command := by
    intro i
    have hget : (l.node.store.logs[i]?).map (·.command) =
        ((acknowledged l.effects)[i]?).map some := by
      rw [← List.getElem?_map, ← List.getElem?_map, h.logs]
    unfold Node.getCommand ContextStore.log
    cases hl : l.node.store.logs[i]? <;> cases ha : (acknowledged l.effects)[i]? <;>
      simp_all
  not_reverted := h.not_reverted
  elected := by
    have hin : Input.electionTimer.Solo := trivial
    rw [h.node.isLeader_run hin]
    rfl
  stays := by
    intro input hin hl
    rw [h.node.isLeader_run hin, hl, Bool.or_true]
  waits := by
    intro input hin hne hl
    rw [h.node.isLeader_run hin, hl]
    simpa using hne
  restarted := by
    have hs : (Node.create .plain [me] me l.node.store.db).core.state = .follower :=
      (create_core h.node.ok.store [me] me).2.2.2
    simp [Node.isLeader, show (Node.create .plain [me] me l.node.store.db).state = _ from hs]
  commits := by
    intro command hl
    rw [h.node.responses_commitCommand command hl, ← h.length]
    rfl
  refuses := by
    intro command hl
    rw [Node.commitCommand_follower command hl, ← h.length]
    exact ⟨rfl, rfl, rfl⟩

end Life

/-- **A one-node cluster is an append-only list.** In every run of its callbacks, with restarts
between them, the log is what has been acknowledged in all processes, in order; the node is elected
at the first election timeout after a start and stays leader, and commands before that are refused
without a trace. -/
theorem one_node_is_a_list {me : Nat} {h : List Life} (hme : me < 2 ^ 32)
    (hr : LifeRun [me] me (fun _ event => event.Solo) h) : ∀ l ∈ h, l.IsList me := by
  have hsolo : ∀ l ∈ h, l.Solo := by
    apply hr.forall_mem (Life.Solo.init hme)
    intro l event l' hl hev hs
    exact hl.step hme hev hs
  exact fun l hl => (hsolo l hl).isList

/-- Node 7 refuses a command before its election, commits two, and restarts twice. It then holds
three commands, the empty one among them, and numbers the next one `3`. -/
theorem one_node_is_a_list_two_restarts :
    ∃ h, LifeRun [7] 7 (fun _ event => event.Solo) h ∧ ∃ l ∈ h,
      acknowledged l.effects = [[1], [], [3]] ∧ l.node.isLeader = true ∧
      l.node.getCommand 1 = some [] ∧
      responses (l.node.run .plain (.commitCommand (some [4]))).trace = [⟨3, some [4], true⟩] := by
  obtain ⟨h, hr, hc⟩ := Lib.System.exists_run (S := Life.system [7] 7)
    (fun _ event => event.Solo)
    [.handle (.commitCommand (some [9])), .handle .electionTimer,
      .handle (.commitCommand (some [1])), .handle (.requestVote ⟨5, 1, 0, 0⟩),
      .handle (.commitCommand (some [])), .handle .broadcastTimer, .crash .broadcastTimer 0,
      .handle (.commitCommand (some [8])), .handle .electionTimer,
      .handle (.commitCommand (some [3])), .crash .electionTimer 0, .handle .electionTimer]
    (fun h => h.any fun l =>
      acknowledged l.effects = [[1], [], [3]] && l.node.isLeader)
    (by decide +kernel)
  simp only [Bool.and_eq_true, List.any_eq_true, decide_eq_true_eq] at hc
  obtain ⟨l, hl, hack, hlead⟩ := hc
  have hlist := one_node_is_a_list (by decide) hr l hl
  refine ⟨h, hr, l, hl, hack, hlead, ?_, ?_⟩
  · rw [hlist.command, hack]
    rfl
  · rw [hlist.commits [4] hlead, hack]
    rfl

end Foros
