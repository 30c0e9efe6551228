import Foros.Raft.Proof.Plain

/-!
# Callbacks on cores

`run_step`: in a plain environment, a callback is a `Core.Step` of the node's core, and its
visible effects are those of the step. One `Spec` lemma per function of `Foros/Raft/Context.lean`,
each by the lemmas of the functions it calls.
-/

namespace Foros

namespace Node

theorem Spec.stored (s : ContextStore) (puts : List (String × Bytes)) (n : Node) :
    Spec n (n.stored s puts) (n.stored s puts).core [] := ⟨rfl, by simp, id⟩

/-- A change of fields that are neither stored nor visible. -/
theorem Spec.of_eq {n n' : Node} {c : Core} (hc : n'.core = c) (ht : n'.trace = n.trace)
    (hl : n'.lifecycle = n.lifecycle) (hs : n'.state = n.state) : Spec n n' c [] :=
  ⟨hc, by simp [Node.visible, ht], fun h => by simpa [Aligned, hl, hs] using h⟩

theorem Spec.emit {n : Node} {e : Effect} (he : e.visible = true) : Spec n (n.emit e) n.core [e] :=
  ⟨rfl, by simp [Node.visible, Node.emit, he], id⟩

/-! ## Terms -/

theorem updateTerm_of_le {env : Env} {t : Nat} {self : Bool} {n : Node}
    (h : t ≤ n.store.currentTerm) : updateTerm env t self n = (false, n) := by
  simp only [updateTerm, h, if_true]

/-- `update_term` to a larger term, before the state machine is told. -/
def adopt (t : Nat) (n : Node) : Node :=
  resetVote .plain
    (n.stored { n.store with currentTerm := t } [(kCurrentTermKey, Lib.encodeLE 8 t)])

theorem core_adopt (t : Nat) (n : Node) :
    (n.adopt t).core = { n.core with term := t }.resetVote := rfl

theorem adopt_spec (t : Nat) (n : Node) : Spec n (n.adopt t) (n.adopt t).core [] := by
  unfold adopt
  rw [resetVote_plain]
  exact ((Spec.stored ..).trans (Spec.stored ..)).trans (Spec.stored ..)

theorem updateTerm_of_lt {t : Nat} {n : Node} (h : n.store.currentTerm < t) :
    updateTerm .plain t false n = (true, raise .plain .newTermReceived (n.adopt t)) := by
  simp only [updateTerm, show ¬ t ≤ n.store.currentTerm by omega, if_false]
  rfl

theorem updateTerm_self {t : Nat} {n : Node} (h : n.store.currentTerm < t) :
    updateTerm .plain t true n = (true, n.adopt t) := by
  simp only [updateTerm, show ¬ t ≤ n.store.currentTerm by omega, if_false]
  rfl

theorem updateTerm_spec (t : Nat) (n : Node) :
    Spec n (updateTerm .plain t false n).2 (n.core.observe t) [] := by
  by_cases h : t ≤ n.store.currentTerm
  · rw [updateTerm_of_le h, Core.observe_of_le (c := n.core) h]
    exact .refl n
  · rw [updateTerm_of_lt (by omega), Core.observe_of_lt (c := n.core) (Nat.lt_of_not_le h),
      ← core_adopt]
    exact (adopt_spec t n).trans (raise_down (.inl rfl) _).1

/-! ## Elections -/

theorem checkElected_spec (n : Node) : Spec n (checkElected .plain n) n.core.elect [] := by
  unfold checkElected
  by_cases h : n.store.voteReceived < n.majority
  · rw [if_pos h, Core.elect_of_lt (c := n.core) h]
    exact .refl n
  · rw [if_neg h, Core.elect_of_le (c := n.core) (Nat.le_of_not_lt h)]
    have hset : Spec n { n with
        otherNodes := n.otherNodes.map (setMatchIndex ((n.store.lastLog.map (·.id)).getD 0)) }
        _ [] := .of_eq rfl rfl rfl rfl
    exact (hset.after (raise_elected _).1).congr rfl rfl

/-- The requests are all built from the node as it was. -/
theorem foldl_requestVote : ∀ (nodes : List OtherNode) (n : Node),
    nodes.foldl (fun m node => m.emit (.sendRequestVote node.nodeId m.voteRequest)) n =
      { n with trace := n.trace ++
          nodes.map fun node => .sendRequestVote node.nodeId n.voteRequest }
  | [], n => by simp
  | node :: nodes, n => by
    rw [List.foldl_cons, foldl_requestVote nodes]
    simp [emit, voteRequest]

theorem filter_visible_map {f : OtherNode → Effect} (h : ∀ node, (f node).visible = true)
    (nodes : List OtherNode) : (nodes.map f).filter Effect.visible = nodes.map f := by
  rw [List.filter_eq_self]
  intro e he
  obtain ⟨node, -, rfl⟩ := List.mem_map.1 he
  exact h node

theorem requestVote_spec (n : Node) :
    Spec n (requestVote .plain n) n.core.elect n.core.elect.voteRequests := by
  unfold requestVote
  rw [foldl_requestVote, Core.elect_voteRequests]
  have hsend : Spec n { n with trace := n.trace ++ n.core.voteRequests } n.core
      n.core.voteRequests := by
    refine ⟨rfl, ?_, id⟩
    simp only [Node.visible, List.filter_append, Core.voteRequests]
    rw [filter_visible_map (fun _ => rfl)]
  exact (hsend.trans (checkElected_spec _)).congr rfl (List.append_nil _)

theorem increaseTerm_eq (n : Node) :
    increaseTerm .plain n =
      if n.store.currentTerm < (n.store.currentTerm + 1) % 2 ^ 64 then
        n.adopt ((n.store.currentTerm + 1) % 2 ^ 64)
      else n := by
  unfold increaseTerm
  split
  · rw [updateTerm_self ‹_›]
  · rw [updateTerm_of_le (by omega)]

/-- The node when an election has been prepared: the term is raised and the vote is its own. -/
def prepared (n : Node) : Node := voteForMe .plain (resetVote .plain (increaseTerm .plain n))

theorem core_voteForMe (n : Node) :
    (voteForMe .plain (resetVote .plain n)).core =
      { n.core with votedFor := n.nodeId, voted := true, voteReceived := 1 } := rfl

theorem core_prepared (n : Node) :
    n.prepared.core = { n.core with
      term := n.core.nextTerm
      votedFor := n.core.nodeId
      voted := true
      voteReceived := 1 } := by
  have hmax : n.core.nextTerm = max n.store.currentTerm ((n.store.currentTerm + 1) % 2 ^ 64) := rfl
  unfold prepared
  rw [core_voteForMe, increaseTerm_eq, hmax]
  generalize (n.store.currentTerm + 1) % 2 ^ 64 = t
  by_cases h : n.store.currentTerm < t
  · rw [if_pos h, Nat.max_eq_right (Nat.le_of_lt h)]
    rfl
  · rw [if_neg h, Nat.max_eq_left (Nat.le_of_not_lt h)]
    rfl

theorem prepared_spec (n : Node) : Spec n n.prepared n.prepared.core [] := by
  have hinc : Spec n (increaseTerm .plain n) (increaseTerm .plain n).core [] := by
    rw [increaseTerm_eq]
    split
    · exact adopt_spec _ n
    · exact .refl n
  unfold prepared
  rw [voteForMe_plain, resetVote_plain]
  exact (((hinc.trans (Spec.stored ..)).trans (Spec.stored ..)).trans (Spec.stored ..)).trans
    (Spec.stored ..)

theorem startElection_spec {n : Node} (hs : n.state = .candidate) :
    Spec n (startElection .plain n) n.core.campaign n.core.campaign.voteRequests := by
  have hc : n.prepared.resetElectionTimer.core.elect = n.core.campaign := by
    change n.prepared.core.elect = _
    rw [core_prepared, Core.campaign, ← hs]
    rfl
  have htimer : Spec n.prepared n.prepared.resetElectionTimer _ [] := .of_eq rfl rfl rfl rfl
  have h := ((prepared_spec n).after htimer).after (requestVote_spec _)
  rw [hc] at h
  exact h

/-- A follower becomes a candidate. -/
theorem handle_timedout_eq {n : Node} (hs : n.state = .follower) :
    ∃ q, Quiet q ∧ handle .plain .timedout n =
      startElection .plain { n with
        state := .candidate
        lifecycle := .standby
        trace := n.trace ++ q } := by
  obtain ⟨q, hq, hl⟩ := handleLifecycle_eq .candidate { n with state := .candidate }
  refine ⟨q, hq, ?_⟩
  simp only [handle, handleWith, hs, transitionMap, onEvent, exitState]
  rw [hl]
  rfl

theorem handle_timedout_follower {n : Node} (hs : n.state = .follower) :
    Spec n (handle .plain .timedout n) n.core.campaign n.core.campaign.voteRequests := by
  obtain ⟨q, hq, he⟩ := handle_timedout_eq hs
  have hcand : Spec n { n with
      state := .candidate
      lifecycle := .standby
      trace := n.trace ++ q } { n.core with state := .candidate } [] :=
    ⟨rfl, by simp [Node.visible, hq.visible], fun _ => rfl⟩
  rw [he]
  exact (hcand.after (startElection_spec rfl)).congr rfl rfl

theorem handle_timedout_candidate {n : Node} (hs : n.state = .candidate) :
    Spec n (handle .plain .timedout n) n.core.campaign n.core.campaign.voteRequests := by
  have he : handle .plain .timedout n = startElection .plain n := by
    simp only [handle, handleWith, hs, transitionMap, onEvent]
  rw [he]
  exact startElection_spec hs

theorem onElectionTimer_spec (n : Node) :
    ∃ c es, n.core.Step .electionTimer c es ∧ Spec n (onElectionTimer .plain n) c es := by
  unfold onElectionTimer
  split
  · exact ⟨_, _, .idleElection, .of_eq rfl rfl rfl rfl⟩
  · cases hs : n.state with
    | follower => exact ⟨_, _, .campaign (.inl hs), handle_timedout_follower hs⟩
    | candidate => exact ⟨_, _, .campaign (.inr hs), handle_timedout_candidate hs⟩
    | standby =>
      have he : handle .plain .timedout n = n := by
        simp only [handle, handleWith, hs, transitionMap]
      exact ⟨_, _, .idleElection, by rw [he]; exact .refl n⟩
    | leader =>
      have he : handle .plain .timedout n = n := by
        simp only [handle, handleWith, hs, transitionMap]
      exact ⟨_, _, .idleElection, by rw [he]; exact .refl n⟩

theorem onRequestVoteResponse_spec (response : RequestVoteResponse) (n : Node) :
    Spec n (onRequestVoteResponse .plain response n) (n.core.requestVoteResponse response) [] := by
  unfold onRequestVoteResponse Core.requestVoteResponse
  by_cases h : response.term < n.store.currentTerm
  · rw [if_pos h, if_pos (show response.term < n.core.term from h)]
    exact .refl n
  rw [if_neg h, if_neg (show ¬ response.term < n.core.term from h)]
  by_cases hlt : n.store.currentTerm < response.term
  · rw [if_pos (show n.core.term < response.term from hlt)]
    have hu := updateTerm_spec response.term n
    rw [updateTerm_of_lt hlt] at hu ⊢
    exact hu
  · rw [if_neg (show ¬ n.core.term < response.term from hlt), updateTerm_of_le (by omega)]
    cases hg : response.voteGranted with
    | false => exact .refl n
    | true =>
      have hvote : Spec n { n with store := n.store.increaseVoteReceived } _ [] :=
        .of_eq rfl rfl rfl rfl
      exact (hvote.after (checkElected_spec _)).congr rfl rfl

theorem grants_iff (request : RequestVoteRequest) (n : Node) :
    (request.term ≥ n.store.currentTerm ∧ n.store.voted = false ∧
      n.store.lastLog.all (·.id ≤ request.lastDataIndex)) ↔ n.core.Grants request := by
  unfold Core.Grants ContextStore.lastLog
  change _ ↔ request.term ≥ n.store.currentTerm ∧ n.store.voted = false ∧
    ∀ log ∈ n.store.logs.getLast?, log.id ≤ request.lastDataIndex
  cases n.store.logs.getLast? <;> simp

theorem vote_spec (request : RequestVoteRequest) (n : Node) :
    (vote .plain request.term request.candidateId request.lastDataIndex request.loatDataTerm n).1 =
      ⟨n.core.term, decide (n.core.Grants request)⟩ ∧
    Spec n (vote .plain request.term request.candidateId request.lastDataIndex
      request.loatDataTerm n).2 (n.core.vote request) [] := by
  unfold vote Core.vote
  simp only [grants_iff]
  by_cases hg : n.core.Grants request
  · simp only [hg, if_true]
    rw [onStore_setVotedFor, onStore_setVoted]
    exact ⟨by simp; rfl, ((Spec.stored ..).after (Spec.stored ..)).congr rfl rfl⟩
  · simp only [hg, if_false]
    exact ⟨by simp; rfl, .refl n⟩

theorem isValidNode_core (id : Nat) (n : Node) : n.isValidNode id = n.core.isValid id := rfl

theorem onRequestVoteRequested_spec (request : RequestVoteRequest) (n : Node) :
    (onRequestVoteRequested .plain request n).1 = (n.core.requestVote request).1 ∧
      Spec n (onRequestVoteRequested .plain request n).2 (n.core.requestVote request).2 [] := by
  unfold onRequestVoteRequested Core.requestVote
  simp only [isValidNode_core]
  by_cases hv : n.core.isValid request.candidateId = false
  · simp only [hv, if_true]
    exact ⟨trivial, .refl n⟩
  · simp only [hv]
    have hu := updateTerm_spec request.term n
    have hvote := vote_spec request (updateTerm .plain request.term false n).2
    rw [hu.core] at hvote
    exact ⟨hvote.1, hu.after hvote.2⟩

/-! ## Replication: the leader's side -/

theorem with_pendingCommit {n : Node} {p : Option PendingCommit} (h : n.pendingCommit = p) :
    { n with pendingCommit := p } = n := by
  subst h
  rfl

/-- A stale pending commit is dropped. -/
def settle (n : Node) : Node := { n with pendingCommit := n.core.current }

theorem getPendingCommit_eq (n : Node) : n.getPendingCommit = (n.core.current, n.settle) := by
  unfold getPendingCommit settle
  cases hp : n.pendingCommit with
  | none =>
    rw [Core.current_of_none (c := n.core) hp, with_pendingCommit hp]
  | some commit =>
    by_cases hid : commit.log.id = n.store.logsSize
    · rw [Core.current_of_eq (c := n.core) hp hid, with_pendingCommit hp]
      simp [hid]
    · rw [Core.current_of_ne (c := n.core) hp hid]
      simp [hid]

/-- The pending entry stands at the end of the view. -/
theorem view_getElem? (c : Core) (i : Nat) :
    c.view[i]? = match c.current with
      | some commit => if commit.log.id = i then some commit.log else c.logs[i]?
      | none => c.logs[i]? := by
  unfold Core.view
  cases hc : c.current with
  | none => simp
  | some commit =>
    have hid : commit.log.id = c.logs.length := (Core.current_eq_some.1 hc).2
    by_cases hi : commit.log.id = i
    · subst hi
      simp [hid]
    · rcases Nat.lt_trichotomy i c.logs.length with h | h | h
      · simp [hi, List.getElem?_append_left h]
      · omega
      · simp [hi, List.getElem?_append_right (Nat.le_of_lt h),
          List.getElem?_eq_none (Nat.le_of_lt h), show i - c.logs.length ≠ 0 by omega]

/-- A node whose pending commit is current. -/
def Settled (n : Node) : Prop := n.core.current = n.pendingCommit

theorem settled_settle (n : Node) : n.settle.Settled := Core.current_current n.core

theorem onLogGetRequest_eq {n : Node} (h : n.Settled) (id : Nat) :
    n.onLogGetRequest id = (n.core.view[id]?, n) := by
  have hn : n.settle = n := with_pendingCommit h.symm
  unfold onLogGetRequest
  rw [getPendingCommit_eq, hn, view_getElem?]
  cases n.core.current with
  | none => rfl
  | some commit =>
    simp only
    split <;> rfl

/-- The entry that `Context::broadcast` passes to its peers: the last one of the view. -/
def lastView (n : Node) : Option LogEntry :=
  match n.core.current with
  | some commit => some commit.log
  | none => n.store.lastLog

/-- The ids of a log are its positions; only the last one matters to a broadcast. -/
def LastId (n : Node) : Prop := ∀ log ∈ n.store.lastLog, log.id + 1 = n.store.logs.length

theorem lastView_any {n : Node} (hid : n.LastId) (i : Nat) :
    n.lastView.any (i ≤ ·.id) = decide (i < n.core.view.length) := by
  unfold lastView Core.view
  cases hc : n.core.current with
  | some commit =>
    have := (Core.current_eq_some.1 hc).2
    simp only [Option.map_some, Option.any_some, Option.toList_some, List.length_append,
      List.length_singleton, this]
    exact decide_eq_decide.2 Nat.lt_succ_iff.symm
  | none =>
    simp only [Option.map_none, Option.toList_none, List.append_nil]
    change n.store.lastLog.any _ = decide (i < n.store.logs.length)
    cases hl : n.store.lastLog with
    | none =>
      have : n.store.logs = [] := List.getLast?_eq_none_iff.1 hl
      simp [this]
    | some log =>
      have := hid log hl
      simp only [Option.any_some, decide_eq_decide]
      omega

theorem fillEntry_eq {n : Node} (h : n.Settled) (hid : n.LastId) (i : Nat) :
    fillEntry n.lastView i { term := n.store.currentTerm, leaderId := n.nodeId } n =
      (n.core.entryRequest i, n) := by
  unfold fillEntry Core.entryRequest
  rw [lastView_any hid, onLogGetRequest_eq h]
  by_cases hlt : i < n.core.view.length
  · simp only [hlt, decide_true, if_true, List.getElem?_eq_getElem hlt]
    rfl
  · simp only [hlt, decide_false, List.getElem?_eq_none (Nat.le_of_not_lt hlt)]
    rfl

theorem fillPrev_eq {n : Node} (h : n.Settled) (node : OtherNode) :
    fillPrev node.nextIndex (n.core.entryRequest node.nextIndex) n =
      (n.core.appendRequest node, n) := by
  unfold fillPrev Core.appendRequest
  rw [onLogGetRequest_eq h]
  by_cases h0 : node.nextIndex = 0
  · simp [h0]
  · simp only [h0, show node.nextIndex > 0 by omega, if_true, if_false]
    cases n.core.view[node.nextIndex - 1]? <;> rfl

theorem broadcastTo_eq {n : Node} (h : n.Settled) (hid : n.LastId) (node : OtherNode) :
    broadcastTo n.lastView node n =
      n.emit (.sendAppendEntries node.nodeId (n.core.appendRequest node)) := by
  unfold broadcastTo
  simp only [fillEntry_eq h hid, fillPrev_eq h]

/-- A broadcast sends each peer its request and changes nothing else. -/
theorem foldl_broadcastTo {n : Node} (h : n.Settled) (hid : n.LastId) :
    ∀ (nodes : List OtherNode) (es : List Effect),
      nodes.foldl (fun m node => broadcastTo n.lastView node m) { n with trace := n.trace ++ es } =
        { n with trace := n.trace ++ es ++ nodes.map fun node =>
          .sendAppendEntries node.nodeId (n.core.appendRequest node) }
  | [], es => by simp
  | node :: nodes, es => by
    have hb : broadcastTo n.lastView node { n with trace := n.trace ++ es } =
        { n with trace := n.trace ++ (es ++
          [.sendAppendEntries node.nodeId (n.core.appendRequest node)]) } := by
      rw [← List.append_assoc]
      exact broadcastTo_eq (n := { n with trace := n.trace ++ es }) h hid node
    rw [List.foldl_cons, hb, foldl_broadcastTo h hid nodes]
    simp

theorem lastView_settle (n : Node) : n.settle.lastView = n.lastView := by
  have hc : n.settle.core.current = n.core.current := Core.current_current n.core
  unfold lastView
  rw [hc]
  rfl

theorem broadcast_eq {n : Node} (hid : n.LastId) :
    n.broadcast = { n.settle with trace := n.trace ++ n.core.appendRequests } := by
  have hreq : ∀ node, n.settle.core.appendRequest node = n.core.appendRequest node :=
    Core.appendRequest_current n.core
  have hfold := foldl_broadcastTo (settled_settle n) hid n.otherNodes []
  simp only [List.append_nil, hreq, lastView_settle] at hfold
  unfold broadcast
  rw [getPendingCommit_eq]
  exact hfold

theorem broadcast_spec {n : Node} (hid : n.LastId) :
    Spec n n.broadcast { n.core with pending := n.core.current } n.core.appendRequests := by
  rw [broadcast_eq hid]
  refine ⟨rfl, ?_, id⟩
  simp only [Node.visible, List.filter_append, Core.appendRequests]
  rw [filter_visible_map (fun _ => rfl)]

theorem onBroadcastTimer_spec {n : Node} (hid : n.LastId) :
    ∃ c es, n.core.Step .broadcastTimer c es ∧
      Spec n (handle .plain .broadcastTimedout n) c es := by
  by_cases hs : n.state = .leader
  · have he : handle .plain .broadcastTimedout n = n.broadcast := by
      simp only [handle, handleWith, hs, transitionMap, onEvent]
    rw [he]
    exact ⟨_, _, .broadcast hs, broadcast_spec hid⟩
  · have he : handle .plain .broadcastTimedout n = n := by
      have ht : transitionMap n.state .broadcastTimedout = none := by
        cases h : n.state <;> simp_all [transitionMap]
      simp only [handle, handleWith, ht]
    rw [he]
    exact ⟨_, _, .idleBroadcast, .refl n⟩

/-! ## Commits -/

theorem pushLog_spec (log : LogEntry) (n : Node) :
    (n.onStore (·.pushLog Env.plain.putOk (some log))).1 = (Logs.push log n.core.logs).1 ∧
      Spec n (n.onStore (·.pushLog Env.plain.putOk (some log))).2
        { n.core with logs := (Logs.push log n.core.logs).2 } [] := by
  rcases Logs.push_cases log n.store.logs with ⟨data, hc, hid⟩ | hr
  · rw [onStore_pushLog hc hid, Logs.push_accepted (L := n.core.logs) hc hid]
    exact ⟨rfl, (Spec.stored ..).congr rfl rfl⟩
  · rw [onStore_pushLog_rejected hr, Logs.push_rejected (L := n.core.logs) hr]
    exact ⟨rfl, (Spec.stored ..).congr rfl rfl⟩

theorem revertLog_spec (id : Nat) (n : Node) :
    Spec n (n.onStore (·.revertLog Env.plain.putOk id)).2
      { n.core with logs := Logs.revert id n.core.logs } [] := by
  unfold Logs.revert
  by_cases h : id ≥ n.store.logs.length
  · rw [onStore_revertLog_rejected h, if_pos (show id ≥ n.core.logs.length from h)]
    exact (Spec.stored ..).congr rfl rfl
  · rw [onStore_revertLog (by omega), if_neg (show ¬ id ≥ n.core.logs.length from h)]
    exact (Spec.stored ..).congr rfl rfl

theorem completeCommit_spec (promise : Nat) (log : LogEntry) (n : Node) :
    Spec n (completeCommit .plain promise log true n)
      { n.core with logs := (Logs.push log n.core.logs).2 }
      (Core.completeNotices promise log) := by
  have hpush := (pushLog_spec log n).2
  have hcommit := hpush.after (Spec.emit (n := (n.onStore (·.pushLog Env.plain.putOk (some log))).2)
    (e := .committed log.id log.command) rfl)
  have hres := hcommit.trans (Spec.emit
    (e := .resolved promise ⟨log.id, log.command, true⟩) rfl)
  exact hres.congr (hcommit.core.trans hpush.core) rfl

/-- A failed commit shows nothing. -/
theorem resolve_failed_spec {promise : Nat} {response : CommandCommitResponse}
    (h : response.result = false) (n : Node) :
    Spec n (resolve .plain promise response n) n.core [] :=
  ⟨rfl, by simp [Node.visible, resolve, Env.plain, emit, Effect.visible, h], id⟩

theorem handlePendingCommitResponse_spec (id commitIndex term : Nat) (success : Bool) (n : Node) :
    Spec n (handlePendingCommitResponse .plain id commitIndex term success n)
      (n.core.count id commitIndex term success)
      (n.core.countNotices id commitIndex term success) := by
  unfold handlePendingCommitResponse Core.count Core.countNotices
  cases hp : n.pendingCommit with
  | none =>
    have hm : n.core.matching commitIndex term = none := by
      simp [Core.matching, core, hp]
    rw [hm]
    exact .refl n
  | some commit =>
    by_cases hmatch : commit.log.id = commitIndex ∧ commit.log.term = term
    · have hm : n.core.matching commitIndex term = some commit := by
        simp [Core.matching, core, hp, hmatch]
      rw [hm]
      have hne : ¬ (commit.log.id ≠ commitIndex ∨ commit.log.term ≠ term) := by
        simpa only [not_or, ne_eq, not_not] using hmatch
      simp only [hne, if_false]
      by_cases hc : n.core.Completes id success commit
      · have hlt : ¬ successCount n.otherNodes (Function.update commit.resultMap id (some success))
            success < n.majority := Nat.not_lt.2 hc
        simp only [hc, hlt, if_true, if_false]
        have hclear : Spec n { n with pendingCommit := none } _ [] := .of_eq rfl rfl rfl rfl
        exact (hclear.after (completeCommit_spec commit.promise commit.log _)).congr rfl rfl
      · have hlt : successCount n.otherNodes (Function.update commit.resultMap id (some success))
            success < n.majority := Nat.lt_of_not_le hc
        simp only [hc, hlt, if_true, if_false]
        exact .of_eq rfl rfl rfl rfl
    · have hm : n.core.matching commitIndex term = none := by
        simp only [Core.matching, core, hp, Option.filter_some, hmatch, decide_false]
        rfl
      rw [hm]
      have hne : commit.log.id ≠ commitIndex ∨ commit.log.term ≠ term := by
        simpa only [not_and_or, ne_eq] using hmatch
      simp only [hne, if_true]
      exact .refl n

theorem onAppendEntriesResponse_spec (id : Nat) (request : AppendEntriesRequest)
    (response : AppendEntriesResponse) (n : Node) :
    Spec n (onAppendEntriesResponse .plain id request response n)
      (n.core.appendEntriesResponse id request response)
      (((n.core.updatePeer id request response).observe response.term).countNotices id
        request.leaderCommit response.term response.success) := by
  have hpeer : Spec n
      { n with
        otherNodes := n.otherNodes.map fun node =>
          if node.nodeId = id then updateIndex request response node else node }
      (n.core.updatePeer id request response) [] := .of_eq rfl rfl rfl rfl
  have hterm : ∀ m : Node, Spec m (if response.term ≥ m.store.currentTerm then
      (updateTerm .plain response.term false m).2 else m) (m.core.observe response.term) [] := by
    intro m
    by_cases h : response.term ≥ m.store.currentTerm
    · rw [if_pos h]
      exact updateTerm_spec response.term m
    · rw [if_neg h, Core.observe_of_le (c := m.core) (Nat.le_of_lt (Nat.lt_of_not_le h))]
      exact .refl m
  have hobs := hpeer.after (hterm _)
  rw [hpeer.core] at hobs
  have h := hobs.after (handlePendingCommitResponse_spec id request.leaderCommit response.term
    response.success _)
  rw [hobs.core] at h
  exact h.congr rfl rfl

/-- `set_pending_commit` looks for a pending commit at the end of the log. -/
theorem any_pendingCommit (n : Node) :
    n.pendingCommit.any (·.log.id = n.store.logsSize) = n.core.current.isSome := by
  cases hp : n.pendingCommit with
  | none =>
    rw [Core.current_of_none (c := n.core) hp]
    rfl
  | some commit =>
    by_cases hid : commit.log.id = n.store.logsSize
    · rw [Core.current_of_eq (c := n.core) hp hid]
      simp [hid]
    · rw [Core.current_of_ne (c := n.core) hp hid]
      simp [hid]

theorem commitCommand_spec (command : Option Command) (n : Node) :
    Spec n (commitCommand .plain command n) (n.core.commitCommand command n.promises)
      (n.core.commitNotices command n.promises) := by
  have hnew : Spec n { n with promises := n.promises + 1 } n.core [] := .of_eq rfl rfl rfl rfl
  unfold commitCommand Core.commitCommand Core.commitNotices
  by_cases hl : n.state = .leader
  · have hl' : ¬ n.core.state ≠ .leader := not_not.2 hl
    have hlead : ({ n with promises := n.promises + 1 } : Node).isLeader = true := by
      simp [isLeader, hl]
    simp only [hlead, hl', if_false, Bool.true_eq_false]
    by_cases hsize : n.clusterSize ≤ 1
    · have hsize' : n.core.clusterSize ≤ 1 := hsize
      have hlead' : n.core.state = .leader := hl
      rw [if_pos hsize, if_pos hsize', if_pos ⟨hlead', hsize'⟩]
      exact (hnew.after (completeCommit_spec _ _ _)).congr rfl rfl
    · have hsize' : ¬ n.core.clusterSize ≤ 1 := hsize
      simp only [hsize, hsize', if_false, and_false]
      have hany := n.any_pendingCommit
      unfold setPendingCommit
      cases hc : n.core.current.isSome with
      | true =>
        simp only [ne_eq, not_true_eq_false, if_false, hany, hc, if_true]
        exact hnew.after (resolve_failed_spec rfl _)
      | false =>
        simp only [ne_eq, not_true_eq_false, if_false, hany, hc, Bool.false_eq_true,
          Bool.true_eq_false]
        exact .of_eq rfl rfl rfl rfl
  · have hl' : n.core.state ≠ .leader := hl
    have hlead : ({ n with promises := n.promises + 1 } : Node).isLeader = false := by
      simp [isLeader, hl]
    have hnot : ¬ (n.core.state = .leader ∧ n.core.clusterSize ≤ 1) := fun h => hl h.1
    rw [if_pos hlead, if_pos hl', if_neg hnot]
    exact hnew.after (resolve_failed_spec rfl _)

/-! ## Replication: the follower's side -/

theorem pushRequested_spec (request : AppendEntriesRequest) (n : Node) :
    (pushRequested .plain request n).1 = (Logs.push (Logs.entry request) n.core.logs).1 ∧
      Spec n (pushRequested .plain request n).2
        { n.core with logs := (Logs.push (Logs.entry request) n.core.logs).2 }
        (Logs.pushNotices (Logs.entry request) n.core.logs) := by
  obtain ⟨hres, hspec⟩ := pushLog_spec (Logs.entry request) n
  have hunf : pushRequested .plain request n =
      if (n.onStore (·.pushLog Env.plain.putOk (some (Logs.entry request)))).1 = false then
        (false, (n.onStore (·.pushLog Env.plain.putOk (some (Logs.entry request)))).2)
      else (true, invokeCommitCallback .plain (Logs.entry request)
        (n.onStore (·.pushLog Env.plain.putOk (some (Logs.entry request)))).2) := rfl
  unfold Logs.pushNotices
  rw [hunf, hres]
  cases hp : (Logs.push (Logs.entry request) n.core.logs).1 with
  | false => exact ⟨rfl, hspec⟩
  | true =>
    refine ⟨rfl, ?_⟩
    have hcommit := hspec.after (Spec.emit (e := .committed (Logs.entry request).id
      (Logs.entry request).command) rfl)
    exact hcommit.congr hspec.core rfl

theorem requestLocalCommit_spec (request : AppendEntriesRequest) (n : Node) :
    (requestLocalCommit .plain request n).1 = (Logs.commit request n.core.logs).1 ∧
      Spec n (requestLocalCommit .plain request n).2
        { n.core with logs := (Logs.commit request n.core.logs).2 }
        (Logs.commitNotices request n.core.logs) := by
  have hlast : n.core.logs.getLast? = n.store.lastLog := rfl
  unfold requestLocalCommit Logs.commit Logs.commitNotices
  rw [hlast]
  cases n.store.lastLog with
  | none => exact pushRequested_spec request n
  | some log =>
    simp only
    by_cases hdup : log.command.isSome ∧ log.id = request.leaderCommit ∧ log.term = request.term
    · simp only [hdup, and_self, if_true]
      exact ⟨trivial, .refl n⟩
    · simp only [hdup, if_false]
      by_cases hge : log.id ≥ request.leaderCommit
      · simp only [hge, if_true]
        have hrev := revertLog_spec request.leaderCommit n
        have hnote := hrev.after (Spec.emit (e := .reverted request.leaderCommit) rfl)
        obtain ⟨h1, h2⟩ := pushRequested_spec request (invokeRevertCallback .plain
          request.leaderCommit (n.onStore (·.revertLog Env.plain.putOk request.leaderCommit)).2)
        have hc : (invokeRevertCallback .plain request.leaderCommit
            (n.onStore (·.revertLog Env.plain.putOk request.leaderCommit)).2).core = _ :=
          hnote.core.trans hrev.core
        rw [hc] at h1 h2
        exact ⟨h1, (hnote.trans h2).congr rfl rfl⟩
      · simp only [hge, if_false]
        exact pushRequested_spec request n

theorem appendRequested_spec (request : AppendEntriesRequest) (n : Node) :
    (appendRequested .plain request n).1 = (Logs.append request n.core.logs).1 ∧
      Spec n (appendRequested .plain request n).2
        { n.core with logs := (Logs.append request n.core.logs).2 }
        (Logs.appendNotices request n.core.logs) := by
  have hlog : n.core.logs[request.prevLogIndex]? = n.store.log request.prevLogIndex := rfl
  unfold appendRequested Logs.append Logs.appendNotices
  rw [hlog]
  by_cases h0 : request.entries.length = 0
  · simp only [h0, if_true]
    exact ⟨trivial, .refl n⟩
  simp only [h0, if_false]
  by_cases hk : request.leaderCommit = 0
  · simp only [hk, if_true]
    exact requestLocalCommit_spec request n
  simp only [hk, if_false]
  cases n.store.log request.prevLogIndex with
  | none => exact ⟨rfl, .refl n⟩
  | some log =>
    simp only
    by_cases ht : log.term ≠ request.prevLogTerm
    · simp only [ht, if_true, not_false_eq_true, ne_eq]
      exact ⟨trivial, revertLog_spec log.id n⟩
    · simp only [ht, if_false]
      exact requestLocalCommit_spec request n

theorem onAppendEntriesRequested_spec (request : AppendEntriesRequest) (n : Node) :
    (onAppendEntriesRequested .plain request n).1 = (n.core.appendEntries request).1 ∧
      Spec n (onAppendEntriesRequested .plain request n).2 (n.core.appendEntries request).2
        (n.core.appendNotices request) := by
  unfold onAppendEntriesRequested Core.appendEntries Core.appendNotices
  simp only [isValidNode_core]
  cases hv : n.core.isValid request.leaderId with
  | false =>
    simp only [if_true, Bool.false_eq_true, if_false]
    exact ⟨trivial, .refl n⟩
  | true =>
    simp only [Bool.true_eq_false, if_false, if_true]
    have hdisc : Spec n (if request.term < n.store.currentTerm then n
        else raise .plain .leaderDiscovered
          { (updateTerm .plain request.term false n).2 with broadcastReceived := true })
        (n.core.discover request) [] := by
      unfold Core.discover
      by_cases hlt : request.term < n.store.currentTerm
      · rw [if_pos hlt, if_pos (show request.term < n.core.term from hlt)]
        exact .refl n
      · rw [if_neg hlt, if_neg (show ¬ request.term < n.core.term from hlt)]
        have hu := updateTerm_spec request.term n
        have hflag : Spec n { (updateTerm .plain request.term false n).2 with
            broadcastReceived := true } _ [] := hu.after (.of_eq rfl rfl rfl rfl)
        have hdown := hflag.after (raise_down (.inr rfl) _).1
        refine hdown.congr ?_ rfl
        change (updateTerm .plain request.term false n).2.core.down = _
        rw [hu.core]
    obtain ⟨h1, h2⟩ := appendRequested_spec request _
    rw [hdisc.core, Core.discover_logs] at h1 h2
    refine ⟨?_, hdisc.after h2⟩
    rw [← h1]
    rfl

/-! ## Callbacks -/

/-- Only a timer starts an election or broadcasts: the events raised inside a callback are
handled the same whatever those two do. -/
theorem handle_eq_raise {ev : Event} (ht : ev ≠ .timedout) (hb : ev ≠ .broadcastTimedout)
    (n : Node) : handle .plain ev n = raise .plain ev n := by
  have hon : ∀ (f g : Node → Node) st, onEvent f g st ev n = n := by
    intro f g st
    unfold onEvent
    split
    · exact absurd rfl ht
    · exact absurd rfl hb
    · rfl
  unfold handle raise handleWith
  cases htr : transitionMap n.state ev with
  | none => rfl
  | some next =>
    cases next with
    | none => simp only [hon]
    | some next =>
      have hne : next ≠ .candidate := by
        rintro rfl
        cases hs : n.state <;> cases ev <;> simp_all [transitionMap]
      simp only [hon]
      obtain ⟨q, -, hl⟩ := handleLifecycle_eq next { exitState .plain n.state n with state := next }
      rw [hl]
      cases next with
      | candidate => exact absurd rfl hne
      | _ => rfl

/-- **A callback is a step of the core.** -/
theorem run_step {n : Node} (hid : n.LastId) (input : Input) :
    ∃ c es, n.core.Step input c es ∧ (run .plain input n).core = c ∧
      (run .plain input n).visible = es ∧ (n.Aligned → (run .plain input n).Aligned) := by
  have key : ∀ (n : Node), n.LastId → n.trace = [] →
      ∃ c es, n.core.Step input c es ∧ Spec n (dispatch .plain input n) c es := by
    intro n hid ht
    cases input with
    | electionTimer =>
      simp only [dispatch]
      split
      · exact onElectionTimer_spec n
      · exact ⟨_, _, .idleElection, .refl n⟩
    | broadcastTimer =>
      simp only [dispatch]
      split
      · exact onBroadcastTimer_spec hid
      · exact ⟨_, _, .idleBroadcast, .refl n⟩
    | commitCommand command => exact ⟨_, _, .commitCommand _ _, commitCommand_spec command n⟩
    | appendEntries request =>
      obtain ⟨h1, h2⟩ := onAppendEntriesRequested_spec request n
      refine ⟨_, _, .appendEntries request, ?_⟩
      have h := h2.trans (Spec.emit (e := .replyAppendEntries request
        (onAppendEntriesRequested .plain request n).1) rfl)
      exact h.congr h2.core (by rw [h1])
    | requestVote request =>
      obtain ⟨h1, h2⟩ := onRequestVoteRequested_spec request n
      refine ⟨_, _, .requestVote request, ?_⟩
      have h := h2.after (Spec.emit (e := .replyRequestVote request
        (onRequestVoteRequested .plain request n).1) rfl)
      exact h.congr h2.core (by rw [h1])
    | appendEntriesResponse id request response =>
      exact ⟨_, _, .appendEntriesResponse _ _ _, onAppendEntriesResponse_spec id request response n⟩
    | requestVoteResponse response =>
      exact ⟨_, _, .requestVoteResponse _, onRequestVoteResponse_spec response n⟩
  obtain ⟨c, es, hstep, hspec⟩ := key { n with trace := [] } hid rfl
  exact ⟨c, es, hstep, hspec.core, hspec.visible, hspec.aligned⟩

end Node

end Foros
