import Foros.Lib.Record
import Foros.Raft.Life
import Foros.Raft.Proof.Exchange
import Foros.Raft.Proof.Faulty
import Foros.Raft.Proof.Reentry
import Foros.Raft.Proof.StoreFaults

/-!
# Positive responses

A promise is fulfilled with success for the entry that `Node.fulfils` names, and for no other
(`Session.Outcome`). `complete_commit` does not look at the result of `push_log`, so the response
is true exactly when that entry can be stored: it goes on at the end of the log, its command is not
null, and the three `Put`s succeed (`positive_responses_logged`).

* `Silent`: a move that resolves and commits nothing; `Owes`: one that keeps the promises.
* `Session.Inv`: the pending commit is for the command passed with its promise.
-/

namespace Foros

/-- `push_log` stores the entry. -/
def ContextStore.Stores (ok : Nat → Bool) (s : ContextStore) (log : LogEntry) : Prop :=
  log.command.isSome ∧ log.id = s.logs.length ∧ ok s.attempts = true ∧
    ok (s.attempts + 1) = true ∧ ok (s.attempts + 2) = true

instance (ok : Nat → Bool) (s : ContextStore) (log : LogEntry) : Decidable (s.Stores ok log) :=
  inferInstanceAs (Decidable (_ ∧ _))

/-- Whether `push_log` stores the entry, its result and the log it leaves. -/
theorem ContextStore.pushLog_stores (ok : Nat → Bool) (log : LogEntry) (s : ContextStore) :
    s.Stores ok log ∧ (s.pushLog ok (some log)).1 = true ∧
        (s.pushLog ok (some log)).2.logs = s.logs ++ [log] ∨
      ¬ s.Stores ok log ∧ (s.pushLog ok (some log)).1 = false ∧
        (s.pushLog ok (some log)).2.logs = s.logs := by
  have hout := pushLog_outcome ok (some log) s
  unfold Stores
  generalize (s.pushLog ok (some log)).1 = result, (s.pushLog ok (some log)).2.logs = logs,
    (s.pushLog ok (some log)).2.db = db at hout ⊢
  cases hout with
  | rejected hrej =>
    refine .inr ⟨fun hs => ?_, rfl, rfl⟩
    rcases hrej log rfl with hnone | hid
    · rw [hnone] at hs
      exact Bool.false_ne_true hs.1
    · exact hid hs.2.1
  | termFailed he hfits h0 => exact .inr ⟨fun hs => by simp [h0] at hs, rfl, rfl⟩
  | dataFailed he hfits h0 h1 => exact .inr ⟨fun hs => by simp [h1] at hs, rfl, rfl⟩
  | sizeFailed he hfits h0 h1 h2 => exact .inr ⟨fun hs => by simp [h2] at hs, rfl, rfl⟩
  | stored he hfits h0 h1 h2 =>
    cases he
    exact .inl ⟨⟨by rw [hfits.1]; rfl, hfits.2, h0, h1, h2⟩, rfl, rfl⟩

/-- The user is told that a command is committed, or that its commit has succeeded. -/
def Effect.Positive : Effect → Prop
  | .committed _ _ => True
  | .resolved _ response => response.result = true
  | _ => False

namespace Node

variable {ok : Nat → Bool} {n n' n'' : Node}

/-! ## The entry that a callback commits -/

/-- The entry whose promise the callback fulfils with success. -/
def fulfils (n : Node) : Input → Option LogEntry
  | .commitCommand command =>
    if n.state = .leader ∧ n.clusterSize ≤ 1 then
      some ⟨n.store.logsSize, n.store.currentTerm, command⟩
    else none
  | .appendEntriesResponse id request response =>
    (n.pendingCommit.filter fun commit =>
      commit.log.id = request.leaderCommit ∧ commit.log.term = response.term ∧
        n.majority ≤ successCount n.otherNodes
          (Function.update commit.resultMap id (some response.success)) response.success).map
      (·.log)
  | _ => none

/-! ## Moves that commit nothing -/

/-- A move that keeps the promises: it makes none, and the pending commit, if one is left, is the
one that was pending. -/
structure Owes (n n' : Node) : Prop where
  promises : n'.promises = n.promises
  pending : ∀ commit ∈ n'.pendingCommit, ∃ commit' ∈ n.pendingCommit,
    commit.promise = commit'.promise ∧ commit.log = commit'.log

theorem Owes.of_eq (h : n'.promises = n.promises)
    (hp : n'.pendingCommit = none ∨ n'.pendingCommit = n.pendingCommit) : Owes n n' := by
  refine ⟨h, fun commit hc => ?_⟩
  rcases hp with hp | hp <;> rw [hp] at hc
  · cases hc
  · exact ⟨commit, hc, rfl, rfl⟩

theorem Owes.trans (h : Owes n n') (h' : Owes n' n'') : Owes n n'' := by
  refine ⟨h'.promises.trans h.promises, fun commit hc => ?_⟩
  obtain ⟨commit', hc', hp', hl'⟩ := h'.pending commit hc
  obtain ⟨commit'', hc'', hp'', hl''⟩ := h.pending commit' hc'
  exact ⟨commit'', hc'', hp'.trans hp'', hl'.trans hl''⟩

/-- A move that leaves the log alone and tells the user of no success. -/
structure Silent (n n' : Node) : Prop extends Owes n n' where
  logs : n'.store.logs = n.store.logs
  trace : ∃ es, n'.trace = n.trace ++ es ∧ ∀ e ∈ es, ¬ e.Positive

namespace Silent

theorem of_eq (hl : n'.store.logs = n.store.logs) (hq : n'.promises = n.promises)
    (hp : n'.pendingCommit = none ∨ n'.pendingCommit = n.pendingCommit)
    (ht : ∃ es, n'.trace = n.trace ++ es ∧ ∀ e ∈ es, ¬ e.Positive) : Silent n n' :=
  ⟨.of_eq hq hp, hl, ht⟩

/-- A change of other fields. -/
theorem of_fields (hl : n'.store.logs = n.store.logs) (hq : n'.promises = n.promises)
    (hp : n'.pendingCommit = n.pendingCommit) (ht : n'.trace = n.trace) : Silent n n' :=
  .of_eq hl hq (.inr hp) ⟨[], by simp [ht], by simp⟩

theorem refl (n : Node) : Silent n n := .of_fields rfl rfl rfl rfl

theorem trans (h : Silent n n') (h' : Silent n' n'') : Silent n n'' := by
  obtain ⟨es, he, hes⟩ := h.trace
  obtain ⟨es', he', hes'⟩ := h'.trace
  refine ⟨h.toOwes.trans h'.toOwes, h'.logs.trans h.logs, es ++ es', ?_, fun e hm => ?_⟩
  · rw [he', he, List.append_assoc]
  · rcases List.mem_append.1 hm with hm | hm
    · exact hes e hm
    · exact hes' e hm

theorem emit {e : Effect} (he : ¬ e.Positive) (n : Node) : Silent n (n.emit e) :=
  .of_eq rfl rfl (.inr rfl) ⟨[e], rfl, by simpa using he⟩

end Silent

theorem Quiet.not_positive {q : List Effect} (h : Quiet q) : ∀ e ∈ q, ¬ e.Positive := by
  intro e he hpos
  rcases h e he with ⟨l, rfl⟩ | ⟨p, r, rfl, hr⟩
  · exact hpos
  · rw [show r.result = true from hpos] at hr
    cases hr

/-- An operation of the store on the way: its `Put`s are not positive. -/
theorem onStore_trace {α : Type} (f : ContextStore → α × ContextStore) (n : Node) :
    ∃ es, (n.onStore f).2.trace = n.trace ++ es ∧ ∀ e ∈ es, ∃ key value, e = .put key value := by
  refine ⟨_, rfl, fun e he => ?_⟩
  obtain ⟨p, -, rfl⟩ := List.mem_map.1 he
  exact ⟨p.1, p.2, rfl⟩

theorem silent_onStore {α : Type} {f : ContextStore → α × ContextStore} {n : Node}
    (hf : (n.onStore f).2.store.logs = n.store.logs) : Silent n (n.onStore f).2 := by
  obtain ⟨es, he, hes⟩ := onStore_trace f n
  refine .of_eq hf rfl (.inr rfl) ⟨es, he, fun e hm hpos => ?_⟩
  obtain ⟨key, value, rfl⟩ := hes e hm
  exact hpos

theorem silent_setVotedFor (ok : Nat → Bool) (id : Nat) (n : Node) :
    Silent n (n.onStore (·.setVotedFor ok id)).2 :=
  silent_onStore (congrArg Core.logs (core_setVotedFor ok id n))

theorem silent_setVoted (ok : Nat → Bool) (voted : Bool) (n : Node) :
    Silent n (n.onStore (·.setVoted ok voted)).2 :=
  silent_onStore (congrArg Core.logs (core_setVoted ok voted n))

theorem silent_setCurrentTerm (ok : Nat → Bool) (t : Nat) (n : Node) :
    Silent n (n.onStore (·.setCurrentTerm ok t)).2 :=
  silent_onStore (congrArg Core.logs (core_setCurrentTerm ok t n))

theorem silent_resetVote (ok : Nat → Bool) (n : Node) : Silent n (resetVote (.faulty ok) n) := by
  have hreset : ∀ m : Node, Silent m { m with store := m.store.resetVoteReceived } :=
    fun _ => .of_fields rfl rfl rfl rfl
  exact ((silent_setVotedFor ok 0 n).trans (hreset _)).trans (silent_setVoted ok false _)

theorem silent_voteForMe (ok : Nat → Bool) (n : Node) : Silent n (voteForMe (.faulty ok) n) := by
  have hinc : ∀ m : Node, Silent m { m with store := m.store.increaseVoteReceived } :=
    fun _ => .of_fields rfl rfl rfl rfl
  exact ((silent_setVotedFor ok _ n).trans (silent_setVoted ok true _)).trans (hinc _)

theorem silent_raise (ok : Nat → Bool) (event : Event) (n : Node) :
    Silent n (raise (.faulty ok) event n) := by
  rw [raise_faulty]
  cases ht : transitionMap n.state event with
  | none =>
    rw [raise_none ht]
    exact .refl n
  | some next =>
    cases next with
    | none =>
      rw [raise_stay ht]
      exact .refl n
    | some next =>
      obtain ⟨q, et, bt, hq, he⟩ := raise_eq ht
      rw [he]
      refine .of_eq rfl rfl ?_ ⟨q, rfl, hq.not_positive⟩
      by_cases hs : n.state = .leader
      · exact .inl (if_pos hs)
      · exact .inr (if_neg hs)

theorem silent_updateTerm (ok : Nat → Bool) (t : Nat) (self : Bool) (n : Node) :
    Silent n (updateTerm (.faulty ok) t self n).2 := by
  unfold updateTerm
  split
  · exact .refl n
  have hset := (silent_setCurrentTerm ok t n).trans (silent_resetVote ok _)
  simp only
  split
  · exact hset.trans (silent_raise ok .newTermReceived _)
  · exact hset

theorem silent_checkElected (ok : Nat → Bool) (n : Node) :
    Silent n (checkElected (.faulty ok) n) := by
  unfold checkElected
  split
  · exact .refl n
  · have hset : Silent n { n with
        otherNodes := n.otherNodes.map (setMatchIndex ((n.store.lastLog.map (·.id)).getD 0)) } :=
      .of_fields rfl rfl rfl rfl
    exact hset.trans (silent_raise ok .elected _)

theorem silent_startElection (ok : Nat → Bool) (n : Node) :
    Silent n (startElection (.faulty ok) n) := by
  have htimer : ∀ m : Node, Silent m m.resetElectionTimer := fun _ => .of_fields rfl rfl rfl rfl
  have hsend : ∀ m : Node, Silent m (m.otherNodes.foldl
      (fun m node => m.emit (.sendRequestVote node.nodeId m.voteRequest)) m) := by
    intro m
    rw [foldl_requestVote]
    refine .of_eq rfl rfl (.inr rfl) ⟨_, rfl, fun e he hpos => ?_⟩
    obtain ⟨node, -, rfl⟩ := List.mem_map.1 he
    exact hpos
  have hvote := ((silent_updateTerm ok ((n.store.currentTerm + 1) % 2 ^ 64) true n).trans
    (silent_resetVote ok _)).trans (silent_voteForMe ok _)
  exact ((hvote.trans (htimer _)).trans (hsend _)).trans (silent_checkElected ok _)

theorem silent_onElectionTimer (ok : Nat → Bool) (n : Node) :
    Silent n (onElectionTimer (.faulty ok) n) := by
  unfold onElectionTimer
  split
  · exact .of_fields rfl rfl rfl rfl
  unfold handle handleWith
  cases hs : n.state with
  | follower =>
    obtain ⟨q, hq, hl⟩ := handleLifecycle_eq .candidate { n with state := .candidate }
    simp only [transitionMap, onEvent, hs, exitState]
    have hnext : Silent n { n with
        state := .candidate
        lifecycle := StateType.candidate.lifecycle
        trace := n.trace ++ q } := .of_eq rfl rfl (.inr rfl) ⟨q, rfl, hq.not_positive⟩
    change Silent n (entryState (startElection (.faulty ok)) (handleLifecycle .plain
      (lifecycleEvent .candidate) { n with state := .candidate }).state (handleLifecycle .plain
      (lifecycleEvent .candidate) { n with state := .candidate }))
    rw [hl]
    exact hnext.trans (silent_startElection ok _)
  | candidate => exact silent_startElection ok n
  | _ => exact .refl n

theorem silent_onBroadcastTimer (ok : Nat → Bool) (n : Node) :
    Silent n (handle (.faulty ok) .broadcastTimedout n) := by
  unfold handle handleWith
  cases hs : n.state with
  | leader =>
    obtain ⟨p, es, hp, hes, he⟩ := n.broadcast_sends
    simp only [transitionMap, onEvent]
    rw [he]
    refine .of_eq rfl rfl hp ⟨es, rfl, fun e hm hpos => ?_⟩
    obtain ⟨dst, request, rfl⟩ := hes e hm
    exact hpos
  | _ => exact .refl n

theorem silent_onRequestVoteResponse (ok : Nat → Bool) (response : RequestVoteResponse)
    (n : Node) : Silent n (onRequestVoteResponse (.faulty ok) response n) := by
  unfold onRequestVoteResponse
  split
  · exact .refl n
  have hterm := silent_updateTerm ok response.term false n
  simp only
  split
  · exact hterm
  split
  · exact hterm
  · have hinc : ∀ m : Node, Silent m { m with store := m.store.increaseVoteReceived } :=
      fun _ => .of_fields rfl rfl rfl rfl
    exact (hterm.trans (hinc _)).trans (silent_checkElected ok _)

theorem silent_onRequestVoteRequested (ok : Nat → Bool) (request : RequestVoteRequest)
    (n : Node) : Silent n (onRequestVoteRequested (.faulty ok) request n).2 := by
  unfold onRequestVoteRequested
  split
  · exact .refl n
  have hterm := silent_updateTerm ok request.term false n
  unfold vote
  simp only
  split
  · exact hterm.trans ((silent_setVotedFor ok _ _).trans (silent_setVoted ok true _))
  · exact hterm

/-! ## The pending commit -/

/-- The response does not reach a pending commit. -/
theorem handlePendingCommitResponse_of_ne {env : Env} {id commitIndex t : Nat} {success : Bool}
    (h : ∀ commit ∈ n.pendingCommit, ¬ (commit.log.id = commitIndex ∧ commit.log.term = t)) :
    handlePendingCommitResponse env id commitIndex t success n = n := by
  unfold handlePendingCommitResponse
  cases hp : n.pendingCommit with
  | none => rfl
  | some commit =>
    have hne : commit.log.id ≠ commitIndex ∨ commit.log.term ≠ t :=
      not_and_or.1 (h commit hp)
    exact if_pos hne

theorem handlePendingCommitResponse_of_eq {env : Env} {id : Nat} {success : Bool}
    {commit : PendingCommit} (hp : n.pendingCommit = some commit) :
    handlePendingCommitResponse env id commit.log.id commit.log.term success n =
      let resultMap := Function.update commit.resultMap id (some success)
      if successCount n.otherNodes resultMap success < n.majority then
        { n with pendingCommit := some { commit with resultMap := resultMap } }
      else
        completeCommit env commit.promise commit.log true { n with pendingCommit := none } := by
  unfold handlePendingCommitResponse
  simp only [hp, ne_eq, not_true_eq_false, or_self, if_false]

/-- The node with the indices of the peer that has answered. -/
def answered (id : Nat) (request : AppendEntriesRequest) (response : AppendEntriesResponse)
    (n : Node) : Node :=
  { n with otherNodes := n.otherNodes.map fun node =>
      if node.nodeId = id then updateIndex request response node else node }

theorem silent_answered (id : Nat) (request : AppendEntriesRequest)
    (response : AppendEntriesResponse) (n : Node) : Silent n (n.answered id request response) :=
  .of_fields rfl rfl rfl rfl

/-- The new indices of a peer do not matter to the count. -/
theorem successCount_answered (id : Nat) (request : AppendEntriesRequest)
    (response : AppendEntriesResponse) (n : Node) (resultMap : Nat → Option Bool)
    (success : Bool) :
    successCount (n.answered id request response).otherNodes resultMap success =
      successCount n.otherNodes resultMap success := by
  unfold answered
  rw [Core.successCount_eq, Core.successCount_eq, Core.map_updateIndex_nodeId]

theorem fulfils_appendEntriesResponse {id : Nat} {request : AppendEntriesRequest}
    {response : AppendEntriesResponse} {log : LogEntry} :
    n.fulfils (.appendEntriesResponse id request response) = some log ↔
      ∃ commit, n.pendingCommit = some commit ∧ commit.log = log ∧
        log.id = request.leaderCommit ∧ log.term = response.term ∧
        n.majority ≤ successCount n.otherNodes
          (Function.update commit.resultMap id (some response.success)) response.success := by
  simp only [fulfils, Option.map_eq_some_iff, Option.filter_eq_some_iff, decide_eq_true_eq]
  constructor
  · rintro ⟨commit, ⟨hp, hid, hterm, hcount⟩, rfl⟩
    exact ⟨commit, hp, rfl, hid, hterm, hcount⟩
  · rintro ⟨commit, hp, rfl, hid, hterm, hcount⟩
    exact ⟨commit, ⟨hp, hid, hterm, hcount⟩, rfl⟩

/-- A commit is completed: the entry is stored if it can be, and the user is told of it in any
case. -/
structure Completes (ok : Nat → Bool) (promise : Nat) (log : LogEntry) (n n' : Node) : Prop where
  stored : n.store.Stores ok log ∧ n'.store.logs = n.store.logs ++ [log] ∨
    ¬ n.store.Stores ok log ∧ n'.store.logs = n.store.logs
  trace : ∃ es, (∀ e ∈ es, ∃ key value, e = .put key value) ∧ n'.trace = n.trace ++ (es ++
    [.committed log.id log.command, .resolved promise ⟨log.id, log.command, true⟩])

theorem completeCommit_completes (ok : Nat → Bool) (promise : Nat) (log : LogEntry) (n : Node) :
    Completes ok promise log n (completeCommit (.faulty ok) promise log true n) := by
  obtain ⟨es, he, hes⟩ := onStore_trace (·.pushLog ok (some log)) n
  refine ⟨?_, es, hes, ?_⟩
  · rcases ContextStore.pushLog_stores ok log { n.store with journal := [] } with h | h
    · exact .inl ⟨h.1, h.2.2⟩
    · exact .inr ⟨h.1, h.2.2⟩
  · change (n.onStore (·.pushLog ok (some log))).2.trace ++ _ ++ _ = _
    rw [he]
    simp

theorem Completes.committed_mem {promise : Nat} {log : LogEntry} {n' : Node}
    (h : Completes ok promise log n n') : .committed log.id log.command ∈ n'.trace := by
  obtain ⟨es, -, ht⟩ := h.trace
  rw [ht]
  simp

/-- Beside its `Put`s a completed commit has the two effects that the user sees. -/
theorem Completes.mem_trace {promise : Nat} {log : LogEntry} {n' : Node}
    (h : Completes ok promise log n n') (hn : n.trace = []) {e : Effect} (he : e ∈ n'.trace) :
    (∃ key value, e = .put key value) ∨ e = .committed log.id log.command ∨
      e = .resolved promise ⟨log.id, log.command, true⟩ := by
  obtain ⟨es, hes, ht⟩ := h.trace
  rw [ht, hn, List.nil_append] at he
  rcases List.mem_append.1 he with he | he
  · exact .inl (hes e he)
  · simpa using Or.inr he

theorem owes_completeCommit (ok : Nat → Bool) (promise : Nat) (log : LogEntry) (n : Node) :
    Owes n (completeCommit (.faulty ok) promise log true n) := .of_eq rfl (.inr rfl)

theorem owes_handlePendingCommitResponse (ok : Nat → Bool) (id commitIndex t : Nat)
    (success : Bool) (n : Node) :
    Owes n (handlePendingCommitResponse (.faulty ok) id commitIndex t success n) := by
  by_cases h : ∀ commit ∈ n.pendingCommit, ¬ (commit.log.id = commitIndex ∧ commit.log.term = t)
  · rw [handlePendingCommitResponse_of_ne h]
    exact .of_eq rfl (.inr rfl)
  · push Not at h
    obtain ⟨commit, hp, rfl, rfl⟩ := h
    rw [handlePendingCommitResponse_of_eq hp]
    simp only
    split
    · refine ⟨rfl, fun commit' hc => ⟨commit, hp, ?_⟩⟩
      cases hc
      exact ⟨rfl, rfl⟩
    · have hclear : Owes n { n with pendingCommit := none } := .of_eq rfl (.inl rfl)
      exact hclear.trans (owes_completeCommit ok _ _ _)

/-! ## The follower's side -/

/-- Among effects after which the log is `logs'`: the entry has just gone to the end of the log,
or to the place where the log has been reverted to. -/
def Appended (logs logs' : List LogEntry) (es : List Effect) (id : Nat)
    (command : Option Command) : Prop :=
  (id = logs.length ∨ .reverted id ∈ es) ∧ ∃ t, logs' = logs.take id ++ [⟨id, t, command⟩]

/-- A move that resolves no promise with success, and tells the user of the entries it appends. -/
structure Tells (n n' : Node) : Prop extends Owes n n' where
  trace : ∃ es, n'.trace = n.trace ++ es ∧
    (∀ promise response, .resolved promise response ∈ es → response.result = false) ∧
    ∀ id command, .committed id command ∈ es →
      Appended n.store.logs n'.store.logs es id command

theorem Silent.tells (h : Silent n n') : Tells n n' := by
  obtain ⟨es, he, hes⟩ := h.trace
  refine ⟨h.toOwes, es, he, fun promise response hm => ?_, fun id command hm => ?_⟩
  · exact Bool.eq_false_of_not_eq_true (hes _ hm)
  · exact absurd trivial (hes _ hm)

theorem Silent.trans_tells (h : Silent n n') (h' : Tells n' n'') : Tells n n'' := by
  obtain ⟨es, he, hes⟩ := h.trace
  obtain ⟨es', he', hr, hc⟩ := h'.trace
  refine ⟨h.toOwes.trans h'.toOwes, es ++ es', ?_, fun promise response hm => ?_,
    fun id command hm => ?_⟩
  · rw [he', he, List.append_assoc]
  · rcases List.mem_append.1 hm with hm | hm
    · exact Bool.eq_false_of_not_eq_true (hes _ hm)
    · exact hr promise response hm
  · rcases List.mem_append.1 hm with hm | hm
    · exact absurd trivial (hes _ hm)
    · obtain ⟨hid, hlog⟩ := hc id command hm
      rw [h.logs] at hid hlog
      exact ⟨hid.imp_right (List.mem_append_right _), hlog⟩

theorem Tells.emit (h : Tells n n') {e : Effect} (he : ¬ e.Positive) : Tells n (n'.emit e) := by
  obtain ⟨es, ht, hr, hc⟩ := h.trace
  refine ⟨h.toOwes.trans (.of_eq rfl (.inr rfl)), es ++ [e], ?_, fun promise response hm => ?_,
    fun id command hm => ?_⟩
  · rw [← List.append_assoc, ← ht]
    rfl
  · rcases List.mem_append.1 hm with hm | hm
    · exact hr promise response hm
    · cases List.mem_singleton.1 hm
      exact Bool.eq_false_of_not_eq_true he
  · rcases List.mem_append.1 hm with hm | hm
    · obtain ⟨hid, hlog⟩ := hc id command hm
      exact ⟨hid.imp_right (List.mem_append_left _), hlog⟩
    · cases List.mem_singleton.1 hm
      exact absurd trivial he

/-- The entry of a request is pushed, and the user is told if that succeeds. -/
theorem pushRequested_cases (ok : Nat → Bool) (request : AppendEntriesRequest) (n : Node) :
    Owes n (pushRequested (.faulty ok) request n).2 ∧
      ∃ es, (∀ e ∈ es, ∃ key value, e = .put key value) ∧
        ((pushRequested (.faulty ok) request n).2.trace = n.trace ++ es ∨
          (pushRequested (.faulty ok) request n).2.trace = n.trace ++ (es ++
              [.committed request.leaderCommit (some request.entries)]) ∧
            request.leaderCommit = n.store.logs.length ∧
            (pushRequested (.faulty ok) request n).2.store.logs = n.store.logs ++
              [⟨request.leaderCommit, request.term, some request.entries⟩]) := by
  obtain ⟨es, he, hes⟩ := onStore_trace (·.pushLog ok
    (some ⟨request.leaderCommit, request.term, some request.entries⟩)) n
  have hstores := ContextStore.pushLog_stores ok
    ⟨request.leaderCommit, request.term, some request.entries⟩ { n.store with journal := [] }
  unfold pushRequested
  simp only
  split
  · exact ⟨.of_eq rfl (.inr rfl), es, hes, .inl he⟩
  · rename_i hpushed
    rcases hstores with ⟨hs, -, hlogs⟩ | ⟨-, hres, -⟩
    · refine ⟨.of_eq rfl (.inr rfl), es, hes, .inr ⟨?_, hs.2.1, hlogs⟩⟩
      exact (congrArg (· ++ _) he).trans (List.append_assoc ..)
    · exact absurd hres hpushed

theorem put_not_positive {e : Effect} (h : ∃ key value, e = .put key value) : ¬ e.Positive := by
  obtain ⟨key, value, rfl⟩ := h
  exact id

theorem tells_pushRequested (ok : Nat → Bool) (request : AppendEntriesRequest) (n : Node) :
    Tells n (pushRequested (.faulty ok) request n).2 := by
  obtain ⟨howes, es, hes, ht | ⟨ht, hid, hlogs⟩⟩ := pushRequested_cases ok request n
  · refine ⟨howes, es, ht, fun promise response hm => ?_, fun id command hm => ?_⟩
    · exact Bool.eq_false_of_not_eq_true (put_not_positive (hes _ hm))
    · exact absurd trivial (put_not_positive (hes _ hm))
  · refine ⟨howes, _, ht, fun promise response hm => ?_, fun id command hm => ?_⟩
    · rcases List.mem_append.1 hm with hm | hm
      · exact Bool.eq_false_of_not_eq_true (put_not_positive (hes _ hm))
      · cases List.mem_singleton.1 hm
    · rcases List.mem_append.1 hm with hm | hm
      · exact absurd trivial (put_not_positive (hes _ hm))
      · cases List.mem_singleton.1 hm
        refine ⟨.inl hid, request.term, ?_⟩
        rw [hlogs, hid, List.take_length]

/-- The log is cut back before the entry is pushed. -/
theorem tells_revert_pushRequested (ok : Nat → Bool) (request : AppendEntriesRequest) (n : Node) :
    Tells n (pushRequested (.faulty ok) request
      (invokeRevertCallback (.faulty ok) request.leaderCommit
        (n.onStore (·.revertLog ok request.leaderCommit)).2)).2 := by
  obtain ⟨rs, hr, hrs⟩ := onStore_trace (·.revertLog ok request.leaderCommit) n
  have hlogs : (n.onStore (·.revertLog ok request.leaderCommit)).2.store.logs =
      n.store.logs.take request.leaderCommit := by
    change (ContextStore.revertLog ok request.leaderCommit { n.store with journal := [] }).2.logs =
      _
    unfold ContextStore.revertLog
    split
    · rename_i hge
      exact (List.take_of_length_le hge).symm
    · unfold ContextStore.storeLogsSize ContextStore.put
      split <;> rfl
  have howes : Owes n (n.onStore (·.revertLog ok request.leaderCommit)).2 := .of_eq rfl (.inr rfl)
  have hnote : ∀ m : Node, Owes m (invokeRevertCallback (.faulty ok) request.leaderCommit m) ∧
      (invokeRevertCallback (.faulty ok) request.leaderCommit m).store = m.store ∧
      (invokeRevertCallback (.faulty ok) request.leaderCommit m).trace =
        m.trace ++ [.reverted request.leaderCommit] := fun m => ⟨.of_eq rfl (.inr rfl), rfl, rfl⟩
  obtain ⟨howes', hstore, htrace⟩ := hnote (n.onStore (·.revertLog ok request.leaderCommit)).2
  obtain ⟨howes'', es, hes, hcase⟩ := pushRequested_cases ok request
    (invokeRevertCallback (.faulty ok) request.leaderCommit
      (n.onStore (·.revertLog ok request.leaderCommit)).2)
  rw [htrace, hstore, hr, hlogs] at hcase
  have hquiet : ∀ e ∈ rs ++ [.reverted request.leaderCommit] ++ es, ¬ e.Positive := by
    intro e hm
    simp only [List.mem_append, List.mem_singleton] at hm
    rcases hm with (hm | rfl) | hm
    · exact put_not_positive (hrs e hm)
    · exact id
    · exact put_not_positive (hes e hm)
  rcases hcase with ht | ⟨ht, -, hpush⟩
  · refine ⟨(howes.trans howes').trans howes'', rs ++ [.reverted request.leaderCommit] ++ es, ?_,
      fun promise response hm => ?_, fun id command hm => ?_⟩
    · rw [ht]
      simp
    · exact Bool.eq_false_of_not_eq_true (hquiet _ hm)
    · exact absurd trivial (hquiet _ hm)
  · refine ⟨(howes.trans howes').trans howes'', rs ++ [.reverted request.leaderCommit] ++ es ++
      [.committed request.leaderCommit (some request.entries)], ?_,
      fun promise response hm => ?_, fun id command hm => ?_⟩
    · rw [ht]
      simp
    · rcases List.mem_append.1 hm with hm | hm
      · exact Bool.eq_false_of_not_eq_true (hquiet _ hm)
      · cases List.mem_singleton.1 hm
    · rcases List.mem_append.1 hm with hm | hm
      · exact absurd trivial (hquiet _ hm)
      · cases List.mem_singleton.1 hm
        exact ⟨.inr (by simp), request.term, hpush⟩

theorem tells_requestLocalCommit (ok : Nat → Bool) (request : AppendEntriesRequest) (n : Node) :
    Tells n (requestLocalCommit (.faulty ok) request n).2 := by
  unfold requestLocalCommit
  split
  · exact tells_pushRequested ok request n
  split
  · exact (Silent.refl n).tells
  split
  · exact tells_revert_pushRequested ok request n
  · exact tells_pushRequested ok request n

/-- The log is cut back, and the user is not told. -/
theorem tells_revertLog (ok : Nat → Bool) (id : Nat) (n : Node) :
    Tells n (n.onStore (·.revertLog ok id)).2 := by
  obtain ⟨es, he, hes⟩ := onStore_trace (·.revertLog ok id) n
  refine ⟨.of_eq rfl (.inr rfl), es, he, fun promise response hm => ?_, fun id command hm => ?_⟩
  · exact Bool.eq_false_of_not_eq_true (put_not_positive (hes _ hm))
  · exact absurd trivial (put_not_positive (hes _ hm))

theorem tells_appendRequested (ok : Nat → Bool) (request : AppendEntriesRequest) (n : Node) :
    Tells n (appendRequested (.faulty ok) request n).2 := by
  unfold appendRequested
  split
  · exact (Silent.refl n).tells
  split
  · exact tells_requestLocalCommit ok request n
  split
  · exact (Silent.refl n).tells
  split
  · exact tells_revertLog ok _ n
  · exact tells_requestLocalCommit ok request n

theorem tells_onAppendEntriesRequested (ok : Nat → Bool) (request : AppendEntriesRequest)
    (n : Node) : Tells n (onAppendEntriesRequested (.faulty ok) request n).2 := by
  unfold onAppendEntriesRequested
  split
  · exact (Silent.refl n).tells
  simp only
  refine Silent.trans_tells ?_ (tells_appendRequested ok request _)
  split
  · exact .refl n
  · have hflag : ∀ m : Node, Silent m { m with broadcastReceived := true } :=
      fun _ => .of_fields rfl rfl rfl rfl
    exact ((silent_updateTerm ok request.term false n).trans (hflag _)).trans
      (silent_raise ok .leaderDiscovered _)

/-! ## Callbacks -/

/-- What `commit_command` does: it completes the commit at once, leaves it pending, or has it
fail. -/
theorem commitCommand_cases (ok : Nat → Bool) (command : Option Command) (n : Node) :
    (n.state = .leader ∧ n.clusterSize ≤ 1) ∧
        commitCommand (.faulty ok) command n = completeCommit (.faulty ok) n.promises
          ⟨n.store.logsSize, n.store.currentTerm, command⟩ true
          { n with promises := n.promises + 1 } ∨
      ¬ (n.state = .leader ∧ n.clusterSize ≤ 1) ∧ ∃ p es,
        (p = n.pendingCommit ∨ p = some ⟨⟨n.store.logsSize, n.store.currentTerm, command⟩,
          n.promises, fun _ => none⟩) ∧ (∀ e ∈ es, ¬ e.Positive) ∧
        commitCommand (.faulty ok) command n = { n with
          promises := n.promises + 1
          pendingCommit := p
          trace := n.trace ++ es } := by
  have hfail : ∀ (id : Nat) (m : Node), ∃ es, (∀ e ∈ es, ¬ e.Positive) ∧
      cancelCommit (.faulty ok) n.promises id m = { m with trace := m.trace ++ es } := by
    refine fun id m => ⟨[.resolved n.promises ⟨id, none, false⟩], fun e he => ?_, rfl⟩
    cases List.mem_singleton.1 he
    exact Bool.false_ne_true
  unfold commitCommand
  simp only
  by_cases hl : n.state = .leader
  · have hlead : ({ n with promises := n.promises + 1 } : Node).isLeader = true :=
      decide_eq_true hl
    rw [if_neg (by rw [hlead]; decide)]
    by_cases hsize : n.clusterSize ≤ 1
    · exact .inl ⟨⟨hl, hsize⟩, if_pos hsize⟩
    · right
      refine ⟨fun h => hsize h.2, ?_⟩
      rw [if_neg hsize]
      unfold setPendingCommit
      simp only [ne_eq, not_true_eq_false, if_false]
      split
      · obtain ⟨es, hes, he⟩ := hfail n.store.logsSize { n with promises := n.promises + 1 }
        exact ⟨_, es, .inl rfl, hes, he⟩
      · exact ⟨_, [], .inr rfl, by simp, by simp⟩
  · have hlead : ({ n with promises := n.promises + 1 } : Node).isLeader = false :=
      decide_eq_false hl
    obtain ⟨es, hes, he⟩ := hfail n.store.logsSize { n with promises := n.promises + 1 }
    exact .inr ⟨fun h => hl h.1, _, es, .inl rfl, hes, by rw [if_pos hlead, he]⟩

/-- An answer reaches the pending commit, or changes nothing but the term and the indices. -/
theorem onAppendEntriesResponse_cases (ok : Nat → Bool) (hn : n.PendingHeld) (id : Nat)
    (request : AppendEntriesRequest) (response : AppendEntriesResponse) :
    (∃ commit, n.pendingCommit = some commit ∧ commit.log.id = request.leaderCommit ∧
        commit.log.term = response.term ∧
        onAppendEntriesResponse (.faulty ok) id request response n =
          handlePendingCommitResponse (.faulty ok) id commit.log.id commit.log.term
            response.success (n.answered id request response)) ∨
      (∀ commit ∈ n.pendingCommit,
        ¬ (commit.log.id = request.leaderCommit ∧ commit.log.term = response.term)) ∧
        Silent n (onAppendEntriesResponse (.faulty ok) id request response n) := by
  have heq : onAppendEntriesResponse (.faulty ok) id request response n =
      onBroadcastResponse (.faulty ok) id request.leaderCommit response.term response.success
        (n.answered id request response) := rfl
  rw [heq]
  unfold onBroadcastResponse
  simp only
  by_cases h : ∀ commit ∈ n.pendingCommit,
      ¬ (commit.log.id = request.leaderCommit ∧ commit.log.term = response.term)
  · refine .inr ⟨h, ?_⟩
    have hterm : ∀ m : Node, Silent m (if response.term ≥ m.store.currentTerm then
        (updateTerm (.faulty ok) response.term false m).2 else m) := by
      intro m
      split
      · exact silent_updateTerm ok _ _ m
      · exact .refl m
    have hmove := (silent_answered id request response n).trans (hterm _)
    rw [handlePendingCommitResponse_of_ne fun commit hc => ?_]
    · exact hmove
    · obtain ⟨commit', hc', -, hlog⟩ := hmove.pending commit hc
      rw [hlog]
      exact h commit' hc'
  · push Not at h
    obtain ⟨commit, hp, hid, hterm⟩ := h
    -- a pending commit is of the current term, so the answer raises none
    have hle : response.term ≤ (n.answered id request response).store.currentTerm :=
      Nat.le_of_eq (hterm.symm.trans (hn commit hp).2)
    refine .inl ⟨commit, hp, hid, hterm, ?_⟩
    rw [updateTerm_of_le hle, ite_self, hid, hterm]

/-- A callback other than `commit_command` and the answer to an AppendEntries fulfils nothing. -/
theorem tells_run (ok : Nat → Bool) {input : Input}
    (hcommand : ∀ command, input ≠ .commitCommand command)
    (hanswer : ∀ id request response, input ≠ .appendEntriesResponse id request response) :
    Tells { n with trace := [] } (n.run (.faulty ok) input) := by
  unfold run dispatch
  cases input with
  | commitCommand command => exact absurd rfl (hcommand command)
  | appendEntriesResponse id request response => exact absurd rfl (hanswer id request response)
  | appendEntries request =>
    exact (tells_onAppendEntriesRequested ok request _).emit (e := .replyAppendEntries request _) id
  | requestVote request =>
    exact ((silent_onRequestVoteRequested ok request _).trans
      (.emit (e := .replyRequestVote request _) id _)).tells
  | requestVoteResponse response => exact (silent_onRequestVoteResponse ok response _).tells
  | electionTimer =>
    simp only
    split
    · exact (silent_onElectionTimer ok _).tells
    · exact (Silent.refl _).tells
  | broadcastTimer =>
    simp only
    split
    · exact (silent_onBroadcastTimer ok _).tells
    · exact (Silent.refl _).tells

/-- The promises after a callback. -/
theorem run_owes (ok : Nat → Bool) (hn : n.PendingHeld) (input : Input) :
    (n.run (.faulty ok) input).promises = n.promises + input.asked.length ∧
      ∀ commit ∈ (n.run (.faulty ok) input).pendingCommit,
        (∃ commit' ∈ n.pendingCommit,
          commit.promise = commit'.promise ∧ commit.log = commit'.log) ∨
        commit.promise = n.promises ∧ input.asked = [commit.log.command] := by
  have key : ∀ {m : Node}, Owes { n with trace := [] } m → m.promises = n.promises ∧
      ∀ commit ∈ m.pendingCommit, (∃ commit' ∈ n.pendingCommit,
          commit.promise = commit'.promise ∧ commit.log = commit'.log) ∨
        commit.promise = n.promises ∧ input.asked = [commit.log.command] := fun h =>
    ⟨h.promises, fun commit hc => .inl (h.pending commit hc)⟩
  cases input with
  | commitCommand command =>
    unfold run dispatch
    rcases commitCommand_cases ok command { n with trace := [] } with ⟨-, he⟩ |
      ⟨-, p, es, hp, -, he⟩
    · simp only [he]
      exact ⟨rfl, fun commit hc => .inl ⟨commit, hc, rfl, rfl⟩⟩
    · simp only [he]
      refine ⟨rfl, fun commit hc => ?_⟩
      rcases hp with rfl | rfl
      · exact .inl ⟨commit, hc, rfl, rfl⟩
      · cases hc
        exact .inr ⟨rfl, rfl⟩
  | appendEntriesResponse id request response =>
    apply key
    unfold run dispatch
    rcases onAppendEntriesResponse_cases ok (n := { n with trace := [] }) hn id request
      response with ⟨commit, -, -, -, he⟩ | ⟨-, hs⟩
    · simp only [he]
      exact (silent_answered id request response _).toOwes.trans
        (owes_handlePendingCommitResponse ok _ _ _ _ _)
    · exact hs.toOwes
  | _ => exact key (tells_run ok (by simp) (by simp)).toOwes

/-- **A callback that fulfils no commit** tells the user of no success but the entries it has
appended. -/
theorem run_tells (ok : Nat → Bool) (hn : n.PendingHeld) {input : Input}
    (h : n.fulfils input = none) :
    (∀ promise response, .resolved promise response ∈ (n.run (.faulty ok) input).trace →
        response.result = false) ∧
      ∀ id command, .committed id command ∈ (n.run (.faulty ok) input).trace →
        Appended n.store.logs (n.run (.faulty ok) input).store.logs
          (n.run (.faulty ok) input).trace id command := by
  have key : ∀ {m : Node}, Tells { n with trace := [] } m →
      (∀ promise response, .resolved promise response ∈ m.trace → response.result = false) ∧
      ∀ id command, .committed id command ∈ m.trace →
        Appended n.store.logs m.store.logs m.trace id command := by
    intro m hm
    obtain ⟨es, he, hr, hc⟩ := hm.trace
    rw [he]
    exact ⟨hr, hc⟩
  cases input with
  | commitCommand command =>
    unfold run dispatch
    rcases commitCommand_cases ok command { n with trace := [] } with ⟨hone, -⟩ |
      ⟨-, p, es, -, hes, he⟩
    · have hsome : n.fulfils (.commitCommand command) = some _ := if_pos hone
      rw [h] at hsome
      cases hsome
    · simp only [he, List.nil_append]
      exact ⟨fun promise response hm => Bool.eq_false_of_not_eq_true (hes _ hm),
        fun id command hm => absurd trivial (hes _ hm)⟩
  | appendEntriesResponse id request response =>
    unfold run dispatch
    rcases onAppendEntriesResponse_cases ok (n := { n with trace := [] }) hn id request
      response with ⟨commit, hp, hid, hterm, he⟩ | ⟨-, hs⟩
    · simp only [he]
      rw [handlePendingCommitResponse_of_eq
        (n := ({ n with trace := [] } : Node).answered id request response) hp]
      simp only [successCount_answered]
      split
      · exact ⟨fun _ _ hm => absurd hm List.not_mem_nil,
          fun _ _ hm => absurd hm List.not_mem_nil⟩
      · rename_i hcount
        have hsome : n.fulfils (.appendEntriesResponse id request response) = some commit.log :=
          fulfils_appendEntriesResponse.2
            ⟨commit, hp, rfl, hid, hterm, Nat.le_of_not_lt hcount⟩
        rw [h] at hsome
        cases hsome
    · exact key hs.tells
  | _ => exact key (tells_run ok (by simp) (by simp))

/-- **A callback that fulfils a commit** completes it, for the promise of its command. -/
theorem run_completes (ok : Nat → Bool) (hn : n.PendingHeld) {input : Input} {log : LogEntry}
    (h : n.fulfils input = some log) :
    ∃ promise, Completes ok promise log { n with trace := [] } (n.run (.faulty ok) input) ∧
      ((∃ commit ∈ n.pendingCommit, commit.promise = promise ∧ commit.log = log) ∧
          input.asked = [] ∨
        promise = n.promises ∧ input.asked = [log.command]) := by
  unfold run dispatch
  cases input with
  | commitCommand command =>
    rcases commitCommand_cases ok command { n with trace := [] } with ⟨hone, he⟩ | ⟨hnot, -⟩
    · have hsome : n.fulfils (.commitCommand command) = some _ := if_pos hone
      rw [h] at hsome
      cases hsome
      simp only [he]
      have hcomp := completeCommit_completes ok n.promises
        ⟨n.store.logsSize, n.store.currentTerm, command⟩
        { n with trace := [], promises := n.promises + 1 }
      exact ⟨n.promises, ⟨hcomp.stored, hcomp.trace⟩, .inr ⟨rfl, rfl⟩⟩
    · have hnone : n.fulfils (.commitCommand command) = none := if_neg hnot
      rw [h] at hnone
      cases hnone
  | appendEntriesResponse id request response =>
    obtain ⟨commit, hp, rfl, hid, hterm, hcount⟩ := fulfils_appendEntriesResponse.1 h
    rcases onAppendEntriesResponse_cases ok (n := { n with trace := [] }) hn id request
      response with ⟨commit', hp', -, -, he⟩ | ⟨hne, -⟩
    · cases hp.symm.trans hp'
      simp only [he]
      rw [handlePendingCommitResponse_of_eq
        (n := ({ n with trace := [] } : Node).answered id request response) hp]
      simp only [successCount_answered]
      have hnot : ¬ successCount n.otherNodes
          (Function.update commit.resultMap id (some response.success)) response.success <
          (({ n with trace := [] } : Node).answered id request response).majority :=
        Nat.not_lt_of_le hcount
      rw [if_neg hnot]
      have hcomp := completeCommit_completes ok commit.promise commit.log
        { ({ n with trace := [] } : Node).answered id request response with pendingCommit := none }
      exact ⟨commit.promise, ⟨hcomp.stored, hcomp.trace⟩, .inl ⟨⟨commit, hp, rfl, rfl⟩, rfl⟩⟩
    · exact absurd ⟨hid, hterm⟩ (hne commit hp)
  | _ => cases h

/-- A node starts with no promise made and no commit pending. -/
theorem create_promises (ok : Nat → Bool) (ids : List Nat) (me : Nat) (db : LevelDB) :
    (create (.faulty ok) ids me db).promises = 0 ∧
      (create (.faulty ok) ids me db).pendingCommit = none := by
  have hstart : ∀ n : Node, n.state = .standby →
      (handle (.faulty ok) .started n).promises = n.promises ∧
        (handle (.faulty ok) .started n).pendingCommit = n.pendingCommit := by
    intro n hs
    obtain ⟨q, -, hl⟩ := handleLifecycle_eq .follower { n with state := .follower }
    have hfollower : handle (.faulty ok) .started n =
        entryState (startElection (.faulty ok))
          (handleLifecycle .plain (lifecycleEvent .follower) { n with state := .follower }).state
          (handleLifecycle .plain (lifecycleEvent .follower) { n with state := .follower }) := by
      unfold handle handleWith
      simp only [hs, transitionMap, onEvent, exitState]
      rfl
    rw [hfollower, hl]
    exact ⟨rfl, rfl⟩
  exact hstart _ rfl

end Node

/-! ## Sessions -/

namespace Session

variable {s : Session} {ok : Nat → Bool} {input : Input}

/-- A positive response is for the command passed with its promise, and the log holds that command
at its index; the user is told only of entries that have been appended. -/
structure Logged (s : Session) (ok : Nat → Bool) (input : Input) : Prop where
  resolved : ∀ promise id command,
    .resolved promise ⟨id, command, true⟩ ∈ (s.step ok input).node.trace →
      (s.step ok input).asked[promise]? = some command ∧
        (s.step ok input).node.store.logs[id]?.map (·.command) = some command
  committed : ∀ id command, .committed id command ∈ (s.step ok input).node.trace →
    Node.Appended s.node.store.logs (s.step ok input).node.store.logs
      (s.step ok input).node.trace id command

/-- The entry that the callback commits, if there is one, is stored. -/
def Lands (s : Session) (ok : Nat → Bool) (input : Input) : Prop :=
  ∀ log ∈ s.node.fulfils input, s.node.store.Stores ok log

instance (s : Session) (ok : Nat → Bool) (input : Input) : Decidable (s.Lands ok input) :=
  inferInstanceAs (Decidable (∀ log ∈ s.node.fulfils input, s.node.store.Stores ok log))

/-- The promises of a session are those of the commands passed, and the pending commit is for the
command passed with its promise. -/
structure Inv (s : Session) : Prop where
  promises : s.node.promises = s.asked.length
  pending : ∀ commit ∈ s.node.pendingCommit, s.asked[commit.promise]? = some commit.log.command
  held : s.node.PendingHeld

theorem faulty_mild (ok : Nat → Bool) : (Env.faulty ok).Mild :=
  Env.Reentrant.mild (.quiet (fun _ _ _ => rfl) (fun _ _ => rfl) (fun _ _ => rfl) fun _ _ => rfl)

theorem Inv.init (ok : Nat → Bool) (ids : List Nat) (me : Nat) (db : LevelDB) :
    (system ok ids me db).init.Inv := by
  have hstart := Node.create_promises ok ids me db
  refine ⟨hstart.1, fun commit hc => ?_, Node.create_held (faulty_mild ok) ids me db⟩
  rw [show (system ok ids me db).init.node.pendingCommit = none from hstart.2] at hc
  cases hc

theorem Inv.step (h : s.Inv) (ok : Nat → Bool) (input : Input) : (s.step ok input).Inv := by
  obtain ⟨hpromises, hpending⟩ := Node.run_owes ok h.held input
  refine ⟨?_, fun commit hc => ?_, ?_⟩
  · change (s.node.run (.faulty ok) input).promises = (s.asked ++ input.asked).length
    rw [hpromises, h.promises, List.length_append]
  · change (s.asked ++ input.asked)[commit.promise]? = _
    rcases hpending commit hc with ⟨commit', hc', hp, hl⟩ | ⟨hp, hasked⟩
    · have hold := h.pending commit' hc'
      rw [hp, hl, List.getElem?_append_left (List.getElem?_eq_some_iff.1 hold).1, hold]
    · rw [hp, hasked, h.promises, List.getElem?_concat_length]
  · exact Node.run_held (faulty_mild ok) (fun _ _ _ _ hp => hp) h.held input

/-- A completed commit is logged only if its entry could be stored: the user is told of it. -/
theorem Logged.stores (hlog : s.Logged ok input) {promise : Nat} {log : LogEntry}
    (hcomp : Node.Completes ok promise log { s.node with trace := [] }
      (s.node.run (.faulty ok) input)) : s.node.store.Stores ok log := by
  obtain ⟨hid, t, hlogs⟩ := hlog.committed _ _ hcomp.committed_mem
  rcases hcomp.stored with ⟨hs, -⟩ | ⟨-, hsame⟩
  · exact hs
  · have hlen : log.id = s.node.store.logs.length := by
      refine hid.resolve_right fun hrev => ?_
      rcases hcomp.mem_trace rfl hrev with ⟨key, value, he⟩ | he | he <;> cases he
    change (s.node.run (.faulty ok) input).store.logs = s.node.store.logs at hsame
    have hgrown := congrArg List.length (hsame.symm.trans hlogs)
    rw [hlen, List.take_length, List.length_append, List.length_singleton] at hgrown
    omega

/-- A completed commit whose entry can be stored is logged, if its promise was made for its
command. -/
theorem Logged.of_stores {promise : Nat} {log : LogEntry}
    (hcomp : Node.Completes ok promise log { s.node with trace := [] }
      (s.node.run (.faulty ok) input)) (hs : s.node.store.Stores ok log)
    (hasked : (s.asked ++ input.asked)[promise]? = some log.command) : s.Logged ok input := by
  obtain ⟨-, hlogs⟩ := hcomp.stored.resolve_right fun hnot => hnot.1 hs
  have hlen : log.id = s.node.store.logs.length := hs.2.1
  change (s.node.run (.faulty ok) input).store.logs = s.node.store.logs ++ [log] at hlogs
  constructor
  · intro promise' id command hm
    rcases hcomp.mem_trace rfl hm with ⟨key, value, he⟩ | he | he
    · cases he
    · cases he
    · cases he
      refine ⟨hasked, ?_⟩
      change (s.node.run (.faulty ok) input).store.logs[log.id]?.map _ = _
      rw [hlogs, hlen, List.getElem?_concat_length]
      rfl
  · intro id command hm
    rcases hcomp.mem_trace rfl hm with ⟨key, value, he⟩ | he | he
    · cases he
    · cases he
      refine ⟨.inl hlen, log.term, ?_⟩
      change (s.node.run (.faulty ok) input).store.logs = _
      rw [hlogs, hlen, List.take_length, ← hlen]
    · cases he

/-- **A callback is logged exactly when its entry lands.** -/
theorem Inv.logged_iff (h : s.Inv) : s.Logged ok input ↔ s.Lands ok input := by
  cases hf : s.node.fulfils input with
  | none =>
    obtain ⟨hr, hc⟩ := Node.run_tells ok h.held hf
    refine ⟨fun _ log hlog => ?_, fun _ => ⟨fun promise id command hm => ?_, hc⟩⟩
    · rw [hf] at hlog
      cases hlog
    · cases hr promise _ hm
  | some log =>
    obtain ⟨promise, hcomp, hasked⟩ := Node.run_completes ok h.held hf
    have hpromise : (s.asked ++ input.asked)[promise]? = some log.command := by
      rcases hasked with ⟨⟨commit, hc, rfl, rfl⟩, hnil⟩ | ⟨rfl, hone⟩
      · rw [hnil, List.append_nil]
        exact h.pending commit hc
      · rw [hone, h.promises, List.getElem?_concat_length]
    constructor
    · intro hlog log' hl
      cases hf.symm.trans hl
      exact hlog.stores hcomp
    · exact fun hl => .of_stores hcomp (hl log hf) hpromise

end Session

end Foros
