import Foros.Raft.Proof.Sparing

/-!
# Receiving AppendEntries

`on_append_entries_requested` for every request of a member. What it does to the log is
`Logs.append` in each of the two branches on the term, so a request of a deposed leader is inert
exactly when the log has no use for its entry (`stale_request_inert`). A successful answer says
that the entry of the request is the end of the log (`append_contract`). An entry that the log
holds already is kept when it is the last one, and cuts off what follows it otherwise
(`redelivery`). Calls of `commit_command` from the user's callbacks change none of this
(`Env.Sparing`).
-/

namespace Foros

/-! ## Requests a log has no use for -/

namespace Logs

/-- The request carries an entry, and its predecessor has another term in the log. -/
def TurnsBack (request : AppendEntriesRequest) (logs : List LogEntry) : Prop :=
  request.entries ≠ [] ∧ request.leaderCommit ≠ 0 ∧
    ∃ log, logs[request.prevLogIndex]? = some log ∧ log.term ≠ request.prevLogTerm ∧
      log.id < logs.length

/-- The request carries an entry whose predecessor is in the log, at the end of the log or below
it. -/
def TakesIn (request : AppendEntriesRequest) (logs : List LogEntry) : Prop :=
  Matches request logs ∧ (request.leaderCommit = logs.length ∨
    ∃ log, logs.getLast? = some log ∧ request.leaderCommit ≤ log.id)

def Handles (request : AppendEntriesRequest) (logs : List LogEntry) : Prop :=
  TurnsBack request logs ∨ TakesIn request logs

variable {request : AppendEntriesRequest} {logs : List LogEntry}

theorem append_of_turnsBack (h : TurnsBack request logs) : (append request logs).2 ≠ logs := by
  obtain ⟨he, hk, log, hp, ht, hlt⟩ := h
  have hlen : request.entries.length ≠ 0 := by simpa using he
  have hrev : revert log.id logs = logs.take log.id := if_neg (by omega)
  unfold append
  rw [if_neg hlen, if_neg hk, hp]
  simp only
  rw [if_pos ht, hrev]
  intro heq
  have := congrArg List.length heq
  rw [List.length_take] at this
  omega

/-- With a predecessor that agrees, the entry is committed. -/
theorem append_of_matches (h : Matches request logs) :
    append request logs = commit request logs ∧
      appendNotices request logs = commitNotices request logs := by
  obtain ⟨he, hp⟩ := h
  have hlen : request.entries.length ≠ 0 := by simpa using he
  unfold append appendNotices
  rw [if_neg hlen, if_neg hlen]
  by_cases hk : request.leaderCommit = 0
  · rw [if_pos hk, if_pos hk]
    exact ⟨rfl, rfl⟩
  · rw [if_neg hk, if_neg hk]
    obtain ⟨log, hlog, ht⟩ := hp.resolve_left hk
    rw [hlog]
    simp only
    rw [if_neg (not_not.2 ht), if_neg (not_not.2 ht)]
    exact ⟨rfl, rfl⟩

theorem append_of_takesIn (h : TakesIn request logs) :
    (append request logs).1 = true ∨
      .reverted request.leaderCommit ∈ appendNotices request logs := by
  obtain ⟨hm, hend⟩ := h
  obtain ⟨h1, h2⟩ := append_of_matches hm
  rw [h1, h2]
  unfold commit commitNotices
  cases hl : logs.getLast? with
  | none =>
    have hk : request.leaderCommit = logs.length := by
      rcases hend with hk | ⟨log, hlog, -⟩
      · exact hk
      · rw [hl] at hlog
        cases hlog
    left
    simp only
    rw [(push_entry hk).1]
  | some log =>
    simp only
    by_cases hc : log.command.isSome ∧ log.id = request.leaderCommit ∧ log.term = request.term
    · rw [if_pos hc]
      exact .inl rfl
    rw [if_neg hc, if_neg hc]
    by_cases hge : log.id ≥ request.leaderCommit
    · rw [if_pos hge, if_pos hge]
      exact .inr (List.mem_cons_self ..)
    · have hk : request.leaderCommit = logs.length := by
        rcases hend with hk | ⟨log', hlog, hle⟩
        · exact hk
        · rw [hl] at hlog
          cases hlog
          exact absurd hle hge
      rw [if_neg hge]
      left
      rw [(push_entry hk).1]

end Logs

namespace Node

/-- The log, what is stored, the role and the heartbeat flag are as before, and no commit or revert
callback was invoked. -/
structure Untouched (n n' : Node) : Prop where
  logs : n'.store.logs = n.store.logs
  currentTerm : n'.store.currentTerm = n.store.currentTerm
  votedFor : n'.store.votedFor = n.store.votedFor
  voted : n'.store.voted = n.store.voted
  db : n'.store.db = n.store.db
  state : n'.state = n.state
  broadcastReceived : n'.broadcastReceived = n.broadcastReceived
  notices : n'.notices = n.notices

/-- The request is answered with failure and changes nothing. -/
def Refuses (env : Env) (request : AppendEntriesRequest) (n : Node) : Prop :=
  (onAppendEntriesRequested env request n).1.success = false ∧
    Untouched n (onAppendEntriesRequested env request n).2

variable {n : Node} {request : AppendEntriesRequest}

theorem Untouched.refl (n : Node) : Untouched n n := ⟨rfl, rfl, rfl, rfl, rfl, rfl, rfl, rfl⟩

/-- The journal of the store is not part of the source's state. -/
theorem Untouched.journal (n : Node) :
    Untouched n { n with store := { n.store with journal := [] } } :=
  ⟨rfl, rfl, rfl, rfl, rfl, rfl, rfl, rfl⟩

theorem Spec.notices {n' : Node} {c : Core} {es : List Effect} (h : Spec n n' c es) :
    n'.notices = n.notices ++ es.filter Effect.isNotice := by
  have hvis : ∀ m : Node, m.notices = m.visible.filter Effect.isNotice := by
    intro m
    unfold Node.notices Node.visible
    rw [List.filter_filter]
    apply List.filter_congr
    intro e _
    cases e <;> simp [Effect.isNotice, Effect.visible]
  rw [hvis, hvis, h.visible, List.filter_append]

/-- A request of a member: the answer, the log and the notices. -/
theorem onAppendEntriesRequested_log {env : Env} (henv : env.Sparing n.clusterSize)
    (hm : n.isValidNode request.leaderId = true) :
    (onAppendEntriesRequested env request n).1.success =
        (Logs.append request n.store.logs).1 ∧
      (onAppendEntriesRequested env request n).2.store.logs =
        (Logs.append request n.store.logs).2 ∧
      (onAppendEntriesRequested env request n).2.notices =
        n.notices ++ Logs.appendNotices request n.store.logs := by
  obtain ⟨hanswer, hnear⟩ := near_onAppendEntriesRequested henv request
  rw [hanswer, hnear.store, hnear.notices]
  obtain ⟨hres, hspec⟩ := onAppendEntriesRequested_spec request n
  have hvalid : n.core.isValid request.leaderId = true := hm
  have hcore := Core.appendEntries_of_valid hvalid
  have hnotices : n.core.appendNotices request = Logs.appendNotices request n.core.logs := by
    unfold Core.appendNotices
    rw [if_pos hvalid]
  have hall : (Logs.appendNotices request n.store.logs).filter Effect.isNotice =
      Logs.appendNotices request n.store.logs := by
    apply List.filter_eq_self.2
    intro e he
    rcases Logs.mem_appendNotices he with ⟨id, rfl⟩ | ⟨id, command, rfl⟩
    · rfl
    · rfl
  refine ⟨?_, ?_, ?_⟩
  · rw [hres, hcore]
    rfl
  · have hlogs := congrArg Core.logs hspec.core
    rw [hcore] at hlogs
    exact hlogs
  · rw [hspec.notices, hnotices]
    exact congrArg _ hall

theorem untouched_pushRequested (env : Env) (hk : request.leaderCommit ≠ n.store.logs.length) :
    (pushRequested env request n).1 = false ∧ Untouched n (pushRequested env request n).2 := by
  have hpush : n.onStore (·.pushLog env.putOk
      (some ⟨request.leaderCommit, request.term, some request.entries⟩)) =
      (false, { n with store := { n.store with journal := [] } }) := by
    simp [onStore, ContextStore.pushLog, hk]
  unfold pushRequested
  simp only [hpush, if_true]
  exact ⟨trivial, .journal n⟩

theorem untouched_requestLocalCommit (env : Env) (hk : request.leaderCommit ≠ n.store.logs.length)
    (hlt : ∀ log, n.store.logs.getLast? = some log → log.id < request.leaderCommit) :
    (requestLocalCommit env request n).1 = false ∧
      Untouched n (requestLocalCommit env request n).2 := by
  unfold requestLocalCommit
  cases hl : n.store.lastLog with
  | none => exact untouched_pushRequested env hk
  | some log =>
    have hid := hlt log hl
    have hdup : ¬ (log.command.isSome ∧ log.id = request.leaderCommit ∧
        log.term = request.term) := fun hc => by omega
    have hge : ¬ log.id ≥ request.leaderCommit := by omega
    simp only
    rw [if_neg hdup, if_neg hge]
    exact untouched_pushRequested env hk

/-- An entry the log has no use for, whatever `Put`s succeed and whatever the callbacks do. -/
theorem untouched_appendRequested (env : Env) (h : ¬ Logs.Handles request n.store.logs) :
    (appendRequested env request n).1 = false ∧ Untouched n (appendRequested env request n).2 := by
  unfold appendRequested
  by_cases he : request.entries.length = 0
  · rw [if_pos he]
    exact ⟨rfl, .refl n⟩
  rw [if_neg he]
  have hne : request.entries ≠ [] := by simpa using he
  -- a request whose predecessor agrees is past the end of the log
  have hcommit : Logs.Matches request n.store.logs → (requestLocalCommit env request n).1 = false ∧
      Untouched n (requestLocalCommit env request n).2 := by
    intro hm
    refine untouched_requestLocalCommit env (fun hk => h (.inr ⟨hm, .inl hk⟩)) fun log hl => ?_
    exact Nat.lt_of_not_le fun hle => h (.inr ⟨hm, .inr ⟨log, hl, hle⟩⟩)
  by_cases hk : request.leaderCommit = 0
  · rw [if_pos hk]
    exact hcommit ⟨hne, .inl hk⟩
  rw [if_neg hk]
  cases hp : n.store.log request.prevLogIndex with
  | none => exact ⟨rfl, .refl n⟩
  | some log =>
    simp only
    by_cases ht : log.term = request.prevLogTerm
    · rw [if_neg (not_not.2 ht)]
      exact hcommit ⟨hne, .inr ⟨log, hp, ht⟩⟩
    · have hge : log.id ≥ n.store.logs.length :=
        Nat.le_of_not_lt fun hlt => h (.inl ⟨hne, hk, log, hp, ht, hlt⟩)
      have hrev : requestLocalRollback env log.id n =
          { n with store := { n.store with journal := [] } } := by
        simp [requestLocalRollback, onStore, ContextStore.revertLog, hge]
      rw [if_pos ht, hrev]
      exact ⟨rfl, .journal n⟩

/-- An entry the log has a use for is not refused. -/
theorem not_refuses_of_handles (hm : n.isValidNode request.leaderId = true)
    (h : Logs.Handles request n.store.logs) : ¬ Refuses .plain request n := by
  rintro ⟨hfail, hun⟩
  obtain ⟨hres, hlogs, hnotices⟩ := onAppendEntriesRequested_log (Env.plain_sparing _) hm
  rcases h with h | h
  · exact Logs.append_of_turnsBack h (hlogs.symm.trans hun.logs)
  rcases Logs.append_of_takesIn h with hs | hs
  · rw [hres, hs] at hfail
    cases hfail
  · rw [hun.notices, List.self_eq_append_right] at hnotices
    rw [hnotices] at hs
    cases hs

end Node

/-- **When a deposed leader cannot change a newer node.** A request of an older term is refused and
changes nothing, in every environment, exactly when the log has no use for its entry: the branch
that notices the older term does not leave the handler. -/
theorem stale_request_inert (n : Node) (request : AppendEntriesRequest)
    (hm : n.isValidNode request.leaderId = true) (ht : request.term < n.store.currentTerm) :
    (∀ env, n.Refuses env request) ↔ ¬ Logs.Handles request n.store.logs := by
  refine ⟨fun h hh => Node.not_refuses_of_handles hm hh (h .plain), fun h env => ?_⟩
  have hvalid : ¬ n.isValidNode request.leaderId = false := by simp [hm]
  have hrun : Node.onAppendEntriesRequested env request n =
      (⟨n.store.currentTerm, (Node.appendRequested env request n).1⟩,
        (Node.appendRequested env request n).2) := by
    unfold Node.onAppendEntriesRequested
    rw [if_neg hvalid]
    simp only [ht, if_true]
  unfold Node.Refuses
  rw [hrun]
  exact Node.untouched_appendRequested env h

/-- Node 0 has heard of term 2 and has an empty log: an entry of term 1 with a predecessor is
refused. -/
theorem stale_request_inert_gap :
    ∃ n, n = (Node.create .plain [0, 1] 0 .empty).run .plain (.requestVote ⟨2, 1, 0, 0⟩) ∧
      n.isValidNode 1 = true ∧ 1 < n.store.currentTerm ∧
      ∀ env, n.Refuses env ⟨1, 1, 2, 1, [7], 3⟩ := by
  refine ⟨_, rfl, by decide +kernel, by decide +kernel, ?_⟩
  apply (stale_request_inert _ _ (by decide +kernel) (by decide +kernel)).2
  have hnil : ((Node.create .plain [0, 1] 0 .empty).run .plain
      (.requestVote ⟨2, 1, 0, 0⟩)).store.logs = [] := by decide +kernel
  rw [hnil]
  rintro (⟨-, -, log, hl, -⟩ | ⟨-, hk | ⟨log, hl, -⟩⟩)
  · cases hl
  · cases hk
  · cases hl

/-- The first entry of the deposed leader of term 1 is appended by the same node, and the answer is
a success. -/
theorem stale_request_handled :
    ¬ ∀ (n : Node) (request : AppendEntriesRequest), n.isValidNode request.leaderId = true →
      request.term < n.store.currentTerm → n.Refuses .plain request := by
  intro h
  have hrefuses := h ((Node.create .plain [0, 1] 0 .empty).run .plain (.requestVote ⟨2, 1, 0, 0⟩))
    ⟨1, 1, 0, 0, [7], 0⟩ (by decide +kernel) (by decide +kernel)
  have hsuccess : (Node.onAppendEntriesRequested .plain ⟨1, 1, 0, 0, [7], 0⟩
      ((Node.create .plain [0, 1] 0 .empty).run .plain
        (.requestVote ⟨2, 1, 0, 0⟩))).1.success = true := by decide +kernel
  rw [hrefuses.1] at hsuccess
  cases hsuccess

/-! ## The contract -/

namespace Logs

/-- What a successful answer says about the log `O` before and the log `N` after it. -/
structure Accepted (request : AppendEntriesRequest) (O N : List LogEntry) : Prop where
  length : N.length = request.leaderCommit + 1
  below : ∀ i < request.leaderCommit, N[i]? = O[i]?
  last : ∃ log, N.getLast? = some log ∧ log.id = request.leaderCommit ∧
    log.term = request.term ∧ (N = O ∨ log.command = some request.entries)

variable {request : AppendEntriesRequest} {logs : List LogEntry}

theorem accepted_entry (h : request.leaderCommit ≤ logs.length) :
    Accepted request logs (logs.take request.leaderCommit ++ [entry request]) := by
  have hlen : (logs.take request.leaderCommit).length = request.leaderCommit := by
    rw [List.length_take]
    exact Nat.min_eq_left h
  refine ⟨by simp [hlen], fun i hi => ?_, entry request, by simp, rfl, rfl, .inr rfl⟩
  rw [List.getElem?_append_left (by omega), List.getElem?_take_of_lt hi]

/-- A success: the predecessor agrees, and the log ends with the entry of the request. -/
theorem accepted_of_append (hi : Indexed logs) (h : (append request logs).1 = true) :
    Matches request logs ∧ Confirms request (append request logs).2 ∧
      Accepted request logs (append request logs).2 := by
  have ho := append_outcome hi request
  generalize append request logs = r at ho h ⊢
  generalize appendNotices request logs = es at ho
  cases ho with
  | ignored _ => cases h
  | rolledBack _ => cases h
  | confirmed hm hc =>
    refine ⟨hm, hc, ?_⟩
    obtain ⟨log, hl, -, hid, ht⟩ := hc
    refine ⟨?_, fun i _ => rfl, log, hl, hid, ht, .inl rfl⟩
    rw [← hid]
    exact (hi.getLast hl).symm
  | replaced hm _ hlt =>
    exact ⟨hm, ⟨entry request, by simp, rfl, rfl, rfl⟩, accepted_entry (Nat.le_of_lt hlt)⟩
  | pushed hm he =>
    have hacc := accepted_entry (Nat.le_of_eq he)
    rw [he, List.take_length] at hacc
    exact ⟨hm, ⟨entry request, by simp, rfl, rfl, rfl⟩, hacc⟩

theorem prefix_of_append (hi : Indexed logs) (h : (append request logs).1 = false) :
    (append request logs).2 <+: logs := by
  have ho := append_outcome hi request
  generalize append request logs = r at ho h ⊢
  generalize appendNotices request logs = es at ho
  cases ho with
  | ignored _ => exact List.prefix_rfl
  | rolledBack _ => exact List.take_prefix ..
  | confirmed _ _ => cases h
  | replaced _ _ _ => cases h
  | pushed _ _ => cases h

end Logs

/-- **The contract of the handler.** After a success the log ends with the entry of the request and
is as before below it; after a failure it is a prefix of what it was. The user's callbacks are any
that spare the node, as calls of `commit_command` do where it has peers. -/
theorem append_contract {env : Env} (n : Node) (request : AppendEntriesRequest)
    (henv : env.Sparing n.clusterSize) (hi : Logs.Indexed n.store.logs)
    (hm : n.isValidNode request.leaderId = true) :
    ((Node.onAppendEntriesRequested env request n).1.success = true →
      Logs.Accepted request n.store.logs
        (Node.onAppendEntriesRequested env request n).2.store.logs) ∧
    ((Node.onAppendEntriesRequested env request n).1.success = false →
      (Node.onAppendEntriesRequested env request n).2.store.logs <+: n.store.logs) := by
  obtain ⟨hres, hlogs, -⟩ := Node.onAppendEntriesRequested_log henv hm
  rw [hres, hlogs]
  exact ⟨fun h => (Logs.accepted_of_append hi h).2.2, Logs.prefix_of_append hi⟩

/-- Node 0 of `{0, 1}` with two entries of node 1, the leader of term 1. -/
def Node.twoEntries : Node :=
  ((Node.create .plain [0, 1] 0 .empty).run .plain (.appendEntries ⟨1, 1, 0, 0, [7], 0⟩)).run .plain
    (.appendEntries ⟨1, 1, 0, 1, [8], 1⟩)

theorem Node.twoEntries_logs :
    twoEntries.store.logs = [⟨0, 1, some [7]⟩, ⟨1, 1, some [8]⟩] := by decide +kernel

theorem Node.twoEntries_indexed : Logs.Indexed twoEntries.store.logs := by
  rw [twoEntries_logs]
  have hone : Logs.Indexed [⟨0, 1, some [7]⟩] := Logs.indexed_nil.push rfl
  exact hone.push rfl

/-- Node 0 of `{0, 1}`, leader of term 1, with a command pending. -/
def Node.onePending : Node :=
  (((Node.create .plain [0, 1] 0 .empty).run .plain .electionTimer).run .plain
    (.requestVoteResponse ⟨1, true⟩)).run .plain (.commitCommand (some [1]))

/-- The leader of term 2 replaces both entries by one. A node that steps down for it takes its entry
in as well, while the user tries again with the command that was pending. -/
theorem append_contract_replaced :
    Logs.Accepted ⟨2, 1, 0, 0, [9], 0⟩ Node.twoEntries.store.logs
      (Node.onAppendEntriesRequested .plain ⟨2, 1, 0, 0, [9], 0⟩ Node.twoEntries).2.store.logs ∧
    Logs.Accepted ⟨2, 1, 0, 0, [9], 0⟩ Node.onePending.store.logs
      (Node.onAppendEntriesRequested .retry ⟨2, 1, 0, 0, [9], 0⟩ Node.onePending).2.store.logs ∧
    (Node.onAppendEntriesRequested .retry ⟨2, 1, 0, 0, [9], 0⟩
      Node.onePending).2.pendingCommit.isSome := by
  have hnil : Node.onePending.store.logs = [] := by decide +kernel
  refine ⟨?_, ?_, by decide +kernel⟩
  · exact (append_contract Node.twoEntries _ (Env.plain_sparing _) Node.twoEntries_indexed
      (by decide +kernel)).1 (by decide +kernel)
  · refine (append_contract Node.onePending _ (Env.retry_reentrant.sparing rfl (by decide +kernel))
      ?_ (by decide +kernel)).1 (by decide +kernel)
    rw [hnil]
    exact Logs.indexed_nil

/-! ## Entries delivered twice -/

namespace Logs

variable {request : AppendEntriesRequest} {logs : List LogEntry}

/-- An entry at the end of the log is found there. -/
theorem append_of_confirms (hm : Matches request logs) (h : Confirms request logs) :
    append request logs = (true, logs) ∧ appendNotices request logs = [] := by
  obtain ⟨log, hl, hc⟩ := h
  obtain ⟨h1, h2⟩ := append_of_matches hm
  rw [h1, h2]
  unfold commit commitNotices
  rw [hl]
  simp only
  rw [if_pos hc, if_pos hc]
  exact ⟨rfl, rfl⟩

/-- An entry below the end of the log cuts off what follows it. -/
theorem append_below (hi : Indexed logs) (hm : Matches request logs)
    (hlt : request.leaderCommit + 1 < logs.length) :
    (append request logs).2 = logs.take request.leaderCommit ++ [entry request] := by
  have ho := append_outcome hi request
  generalize append request logs = r at ho ⊢
  generalize appendNotices request logs = es at ho
  cases ho with
  | ignored hn => exact absurd ⟨hm, by omega⟩ hn
  | rolledBack hr =>
    obtain ⟨-, hk, log, hl, ht⟩ := hr
    rcases hm.2 with h0 | ⟨log', hl', ht'⟩
    · exact absurd h0 hk
    · rw [hl] at hl'
      cases hl'
      exact absurd ht' ht
  | confirmed _ hc =>
    obtain ⟨log, hl, -, hid, -⟩ := hc
    have := hi.getLast hl
    omega
  | replaced _ _ _ => rfl
  | pushed _ he => omega

/-- Entries below the request's keep its predecessor. -/
theorem Matches.congr {logs' : List LogEntry} (h : Matches request logs)
    (hprev : request.leaderCommit = 0 ∨ request.prevLogIndex < request.leaderCommit)
    (hbelow : ∀ i < request.leaderCommit, logs'[i]? = logs[i]?) : Matches request logs' := by
  refine ⟨h.1, ?_⟩
  rcases hprev with h0 | hlt
  · exact .inl h0
  · rw [hbelow _ hlt]
    exact h.2

end Logs

namespace Node

variable {n n' : Node} {request : AppendEntriesRequest} {rs : List AppendEntriesRequest}

/-- The answer is a success, the log is as before, and no commit or revert callback is invoked. -/
def Confirms (env : Env) (request : AppendEntriesRequest) (n : Node) : Prop :=
  (onAppendEntriesRequested env request n).1.success = true ∧
    (onAppendEntriesRequested env request n).2.store.logs = n.store.logs ∧
    (onAppendEntriesRequested env request n).2.notices = n.notices

/-- Requests that are handled one after the other, each with success; what the user's callbacks do
may differ from one to the next. -/
inductive Accepts : Node → List AppendEntriesRequest → Node → Prop
  | nil (n : Node) : Accepts n [] n
  | cons {n n' : Node} {request : AppendEntriesRequest} {rs : List AppendEntriesRequest}
      {env : Env} : env.Sparing n.clusterSize →
      (onAppendEntriesRequested env request n).1.success = true →
      Accepts (onAppendEntriesRequested env request n).2 rs n' → Accepts n (request :: rs) n'

/-- A stranger's request is not answered with success. -/
theorem valid_of_success {env : Env}
    (h : (onAppendEntriesRequested env request n).1.success = true) :
    n.isValidNode request.leaderId = true := by
  cases hv : n.isValidNode request.leaderId with
  | true => rfl
  | false =>
    unfold onAppendEntriesRequested at h
    rw [if_pos hv] at h
    cases h

/-- The members of the cluster are as before. -/
theorem members_onAppendEntriesRequested {env : Env} (henv : env.Sparing n.clusterSize)
    (request : AppendEntriesRequest) (id : Nat) :
    (onAppendEntriesRequested env request n).2.isValidNode id = n.isValidNode id ∧
      (onAppendEntriesRequested env request n).2.clusterSize = n.clusterSize := by
  obtain ⟨-, hnear⟩ := near_onAppendEntriesRequested henv request
  have hcore := (onAppendEntriesRequested_spec request n).2.core
  have hsame : (onAppendEntriesRequested env request n).2.isValidNode id =
      (onAppendEntriesRequested .plain request n).2.isValidNode id := by
    rw [hnear.eq]
    rfl
  refine ⟨?_, hnear.clusterSize_left⟩
  rw [hsame, isValidNode_core, isValidNode_core, hcore]
  unfold Core.isValid Core.appendEntries
  split
  · rfl
  · simp

theorem Accepts.members (h : Accepts n rs n') (id : Nat) :
    n'.isValidNode id = n.isValidNode id ∧ n'.clusterSize = n.clusterSize := by
  induction h with
  | nil => exact ⟨rfl, rfl⟩
  | cons henv _ _ ih =>
    obtain ⟨h1, h2⟩ := members_onAppendEntriesRequested henv _ id
    exact ⟨ih.1.trans h1, ih.2.trans h2⟩

/-- Later requests keep the entries up to `k`, and the last of them is the end of the log. -/
theorem Accepts.keeps {k : Nat} (h : Accepts n rs n') (hi : Logs.Indexed n.store.logs)
    (hk : ∀ r ∈ rs, k < r.leaderCommit) :
    Logs.Indexed n'.store.logs ∧ (∀ i ≤ k, n'.store.logs[i]? = n.store.logs[i]?) ∧
      (rs ≠ [] → k + 1 < n'.store.logs.length) := by
  induction h with
  | nil => exact ⟨hi, fun i _ => rfl, fun hne => absurd rfl hne⟩
  | @cons n n' request rs env henv hs hrest ih =>
    have hm := valid_of_success hs
    obtain ⟨hres, hlogs, -⟩ := onAppendEntriesRequested_log henv hm
    have hi' := hi.append request
    rw [← hlogs] at hi'
    obtain ⟨h1, h2, h3⟩ := ih hi' fun r hr => hk r (List.mem_cons_of_mem _ hr)
    have hlt := hk request (List.mem_cons_self ..)
    obtain ⟨-, -, hacc⟩ := Logs.accepted_of_append hi (hres.symm.trans hs)
    rw [← hlogs] at hacc
    refine ⟨h1, fun i hle => ?_, fun _ => ?_⟩
    · rw [h2 i hle]
      exact hacc.below i (by omega)
    · cases rs with
      | nil =>
        cases hrest
        rw [hacc.length]
        omega
      | cons r rs => exact h3 (by simp)

/-- A request whose entry the log holds. -/
theorem confirms_iff {env : Env} (henv : env.Sparing n.clusterSize)
    (hi : Logs.Indexed n.store.logs) (hm : n.isValidNode request.leaderId = true)
    (hmatch : Logs.Matches request n.store.logs)
    (hheld : n.store.logs[request.leaderCommit]? = some (Logs.entry request)) :
    n.Confirms env request ↔ request.leaderCommit + 1 = n.store.logs.length := by
  obtain ⟨hres, hlogs, hnotices⟩ := onAppendEntriesRequested_log henv hm
  have hlt : request.leaderCommit < n.store.logs.length := (List.getElem?_eq_some_iff.1 hheld).1
  constructor
  · rintro ⟨-, hsame, -⟩
    by_contra hne
    have hcut := Logs.append_below hi hmatch (by omega)
    rw [← hlogs, hsame] at hcut
    have hlen := congrArg List.length hcut
    rw [List.length_append, List.length_take] at hlen
    simp only [List.length_cons, List.length_nil] at hlen
    omega
  · intro hlast
    have hl : n.store.logs.getLast? = some (Logs.entry request) := by
      rw [List.getLast?_eq_getElem?, ← hlast]
      exact hheld
    obtain ⟨h1, h2⟩ := Logs.append_of_confirms hmatch ⟨_, hl, rfl, rfl, rfl⟩
    rw [h1] at hres hlogs
    rw [h2, List.append_nil] at hnotices
    exact ⟨hres, hlogs, hnotices⟩

/-- A request that is handled again, with `rs` handled in between. -/
theorem length_le_iff {env env' : Env} (henv : env.Sparing n.clusterSize)
    (henv' : env'.Sparing n.clusterSize) (hi : Logs.Indexed n.store.logs)
    (hs : (onAppendEntriesRequested env request n).1.success = true)
    (hprev : request.leaderCommit = 0 ∨ request.prevLogIndex < request.leaderCommit)
    (hk : ∀ r ∈ rs, request.leaderCommit < r.leaderCommit)
    (h : Accepts (onAppendEntriesRequested env request n).2 rs n') :
    n'.store.logs.length ≤ (onAppendEntriesRequested env' request n').2.store.logs.length ↔
      rs = [] := by
  have hm := valid_of_success hs
  obtain ⟨hres, hlogs, -⟩ := onAppendEntriesRequested_log henv hm
  obtain ⟨hvalid, hsize⟩ := members_onAppendEntriesRequested henv request request.leaderId
  obtain ⟨hvalid', hsize'⟩ := h.members request.leaderId
  have hm' : n'.isValidNode request.leaderId = true := (hvalid'.trans hvalid).trans hm
  rw [← hsize'.trans hsize] at henv'
  obtain ⟨-, hlogs', -⟩ := onAppendEntriesRequested_log henv' hm'
  have hi1 := hi.append request
  obtain ⟨hmatch0, hconf, hacc⟩ := Logs.accepted_of_append hi (hres.symm.trans hs)
  have hmatch := hmatch0.congr hprev hacc.below
  rw [← hlogs] at hi1 hconf hmatch
  obtain ⟨hi2, hkeep, hend⟩ := h.keeps hi1 hk
  have hmatch' := hmatch.congr hprev fun i hlt => hkeep i (Nat.le_of_lt hlt)
  rw [hlogs']
  constructor
  · intro hle
    by_contra hne
    have hlt := hend hne
    rw [Logs.append_below hi2 hmatch' hlt, List.length_append, List.length_take] at hle
    simp only [List.length_cons, List.length_nil] at hle
    omega
  · rintro rfl
    cases h
    rw [(Logs.append_of_confirms hmatch' hconf).1]

end Node

/-- **When a re-delivered entry is harmless.** A request whose entry the log holds is confirmed
exactly when that entry is the last one; a request that is handled again after later requests have
been accepted keeps the length of the log exactly when there were none. The user's callbacks are any
that spare the node, as calls of `commit_command` do where it has peers. -/
theorem redelivery {env : Env} (n : Node) (request : AppendEntriesRequest)
    (henv : env.Sparing n.clusterSize) (hi : Logs.Indexed n.store.logs)
    (hm : n.isValidNode request.leaderId = true) :
    (Logs.Matches request n.store.logs →
      n.store.logs[request.leaderCommit]? = some (Logs.entry request) →
      (n.Confirms env request ↔ request.leaderCommit + 1 = n.store.logs.length)) ∧
    ((Node.onAppendEntriesRequested env request n).1.success = true →
      (request.leaderCommit = 0 ∨ request.prevLogIndex < request.leaderCommit) →
      ∀ (rs : List AppendEntriesRequest) (n' : Node),
        (∀ r ∈ rs, request.leaderCommit < r.leaderCommit) →
        Node.Accepts (Node.onAppendEntriesRequested env request n).2 rs n' →
        ∀ env' : Env, env'.Sparing n.clusterSize →
          (n'.store.logs.length ≤
            (Node.onAppendEntriesRequested env' request n').2.store.logs.length ↔ rs = [])) := by
  refine ⟨fun hmatch hheld => Node.confirms_iff henv hi hm hmatch hheld,
    fun hs hprev rs n' hk h env' henv' => ?_⟩
  exact Node.length_le_iff henv henv' hi hs hprev hk h

/-- The second of two entries is delivered again. -/
theorem redelivery_last : Node.twoEntries.Confirms .plain ⟨1, 1, 0, 1, [8], 1⟩ := by
  have hmatch : Logs.Matches ⟨1, 1, 0, 1, [8], 1⟩ Node.twoEntries.store.logs := by
    rw [Node.twoEntries_logs]
    exact ⟨by decide, .inr ⟨_, rfl, rfl⟩⟩
  refine ((redelivery _ _ (Env.plain_sparing _) Node.twoEntries_indexed
    (by decide +kernel)).1 hmatch ?_).2 ?_
  · rw [Node.twoEntries_logs]
    rfl
  · rw [Node.twoEntries_logs]
    rfl

/-- The first of two entries is delivered again, in its term: the log is cut to it. -/
theorem redelivery_erases :
    ¬ ∀ (n : Node) (request : AppendEntriesRequest), Logs.Indexed n.store.logs →
      n.isValidNode request.leaderId = true → n.store.currentTerm ≤ request.term →
      Logs.Matches request n.store.logs →
      n.store.logs[request.leaderCommit]? = some (Logs.entry request) →
      n.Confirms .plain request := by
  intro h
  have hmatch : Logs.Matches ⟨1, 1, 0, 0, [7], 0⟩ Node.twoEntries.store.logs :=
    ⟨by decide, .inl rfl⟩
  have hheld : Node.twoEntries.store.logs[0]? = some (Logs.entry ⟨1, 1, 0, 0, [7], 0⟩) := by
    rw [Node.twoEntries_logs]
    rfl
  have hconf := h Node.twoEntries ⟨1, 1, 0, 0, [7], 0⟩ Node.twoEntries_indexed
    (by decide +kernel) (by decide +kernel) hmatch hheld
  have hcut : (Node.onAppendEntriesRequested .plain ⟨1, 1, 0, 0, [7], 0⟩
      Node.twoEntries).2.store.logs = [⟨0, 1, some [7]⟩] := by decide +kernel
  rw [hconf.2.1, Node.twoEntries_logs] at hcut
  cases hcut

end Foros
