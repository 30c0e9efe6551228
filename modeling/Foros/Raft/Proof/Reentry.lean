import Foros.Lib.Run
import Foros.Raft.Proof.Refine

/-!
# User callbacks that call back

User callbacks may call `commit_command`, in the middle of a callback of the node. Such a call
moves neither the state nor the term, and a commit it leaves pending is the leader's own, of the
current term (`Stays`). So a pending commit never outlives the leadership that made it, with one
exception: `Leader::exit` fulfils the pending promise while the state machine still says Leader, and
a commit that the user makes there stays pending in a follower. `Env.Patient` excludes it, and then
the pending commit belongs to its leadership in every state of a run
(`pending_within_leadership`).
-/

namespace Foros

namespace Node

/-- What a user callback can make of a node: calls of `commit_command`, one after the other, whose
own callbacks are those of `env`. -/
inductive Calls (env : Env) (n : Node) : Node → Prop
  | nothing : Calls env n n
  | commitCommand {n' : Node} (command : Option Command) :
      Calls env n n' → Calls env n (commitCommand env command n')

/-- A pending commit is the leader's own, of the current term. -/
def PendingHeld (n : Node) : Prop :=
  ∀ commit ∈ n.pendingCommit, n.state = .leader ∧ commit.log.term = n.store.currentTerm

end Node

/-- User callbacks that do nothing, or call `commit_command`, where the callbacks of a call are
again such callbacks. -/
inductive Env.Reentrant : Env → Prop
  | quiet {env : Env} : (∀ id command n, env.onCommitted id command n = n) →
      (∀ id n, env.onReverted id n = n) → (∀ response n, env.onResponse response n = n) →
      (∀ state n, env.onLifecycle state n = n) → Reentrant env
  | calls {env inner : Env} : Reentrant inner → inner.putOk = env.putOk →
      (∀ id command n, Node.Calls inner n (env.onCommitted id command n)) →
      (∀ id n, Node.Calls inner n (env.onReverted id n)) →
      (∀ response n, Node.Calls inner n (env.onResponse response n)) →
      (∀ state n, Node.Calls inner n (env.onLifecycle state n)) → Reentrant env

/-- The callback of a commit that fails because its leader steps down leaves nothing pending. -/
def Env.Patient (env : Env) : Prop :=
  ∀ response n, response.result = false → n.state = .leader → n.pendingCommit = none →
    (env.onResponse response n).pendingCommit = none

/-- A node whose callbacks run in environments that may differ from one callback to the next. -/
def Node.reentrant (env : Env) (ids : List Nat) (me : Nat) (db : LevelDB) :
    Lib.System Node (Env × Input) where
  init := Node.create env ids me db
  step n a := if n.readsNull a.2 then none else some (n.run a.1 a.2)

/-! ## Moves within a leadership -/

namespace Node

/-- A move that keeps the state and the term, and leaves pending what was pending or a commit of
the current leadership. -/
structure Stays (n n' : Node) : Prop where
  state : n'.state = n.state
  term : n'.store.currentTerm = n.store.currentTerm
  pending : ∀ commit ∈ n'.pendingCommit,
    (∃ commit' ∈ n.pendingCommit, commit.log.term = commit'.log.term) ∨
      n.state = .leader ∧ commit.log.term = n.store.currentTerm

namespace Stays

variable {n n' n'' : Node}

/-- A move away from the pending commit. -/
theorem of_eq (hs : n'.state = n.state) (ht : n'.store.currentTerm = n.store.currentTerm)
    (hp : n'.pendingCommit = n.pendingCommit) : Stays n n' :=
  ⟨hs, ht, fun commit hc => .inl ⟨commit, hp ▸ hc, rfl⟩⟩

theorem refl (n : Node) : Stays n n := of_eq rfl rfl rfl

theorem trans (h : Stays n n') (h' : Stays n' n'') : Stays n n'' := by
  refine ⟨h'.state.trans h.state, h'.term.trans h.term, fun commit hc => ?_⟩
  rcases h'.pending commit hc with ⟨commit', hc', ht⟩ | ⟨hs, ht⟩
  · rw [ht]
    exact h.pending commit' hc'
  · exact .inr ⟨h.state ▸ hs, ht.trans h.term⟩

theorem emit (e : Effect) (n : Node) : Stays n (n.emit e) := of_eq rfl rfl rfl

/-- The pending commit is cleared first. -/
theorem of_clear (h : Stays { n with pendingCommit := none } n') : Stays n n' := by
  refine ⟨h.state, h.term, fun commit hc => ?_⟩
  rcases h.pending commit hc with ⟨commit', hc', -⟩ | hl
  · cases hc'
  · exact .inr hl

theorem held (h : Stays n n') (hn : n.PendingHeld) : n'.PendingHeld := by
  intro commit hc
  rw [h.state, h.term]
  rcases h.pending commit hc with ⟨commit', hc', ht⟩ | hl
  · rw [ht]
    exact hn commit' hc'
  · exact hl

/-- Where the node is no leader nothing becomes pending. -/
theorem none (h : Stays n n') (hs : n.state ≠ .leader) (hn : n.pendingCommit = none) :
    n'.pendingCommit = none := by
  cases hp : n'.pendingCommit with
  | none => rfl
  | some commit =>
    rcases h.pending commit hp with ⟨commit', hc', -⟩ | ⟨hl, -⟩
    · rw [hn] at hc'
      cases hc'
    · exact absurd hl hs

end Stays

theorem PendingHeld.of_none {n : Node} (h : n.pendingCommit = none) : n.PendingHeld := by
  intro commit hc
  rw [h] at hc
  cases hc

theorem PendingHeld.none {n : Node} (h : n.PendingHeld) (hs : n.state ≠ .leader) :
    n.pendingCommit = none := by
  cases hp : n.pendingCommit with
  | none => rfl
  | some commit => exact absurd (h commit hp).1 hs

/-! ## The store -/

theorem put_currentTerm (ok : Nat → Bool) (key : String) (value : Bytes) (s : ContextStore) :
    (s.put ok key value).2.currentTerm = s.currentTerm := by
  unfold ContextStore.put
  split <;> rfl

theorem stays_setVotedFor (ok : Nat → Bool) (id : Nat) (n : Node) :
    Stays n (n.onStore (·.setVotedFor ok id)).2 :=
  .of_eq rfl (put_currentTerm ..) rfl

theorem stays_setVoted (ok : Nat → Bool) (voted : Bool) (n : Node) :
    Stays n (n.onStore (·.setVoted ok voted)).2 :=
  .of_eq rfl (put_currentTerm ..) rfl

theorem stays_revertLog (ok : Nat → Bool) (id : Nat) (n : Node) :
    Stays n (n.onStore (·.revertLog ok id)).2 := by
  refine .of_eq rfl ?_ rfl
  change (ContextStore.revertLog ok id { n.store with journal := [] }).2.currentTerm = _
  unfold ContextStore.revertLog
  split
  · rfl
  · exact put_currentTerm ..

theorem stays_pushLog (ok : Nat → Bool) (log : Option LogEntry) (n : Node) :
    Stays n (n.onStore (·.pushLog ok log)).2 := by
  have hput : ∀ (key : String) (value : Bytes) (s : ContextStore),
      (s.put ok key value).2.currentTerm = s.currentTerm := put_currentTerm ok
  refine .of_eq rfl ?_ rfl
  change (ContextStore.pushLog ok log { n.store with journal := [] }).2.currentTerm = _
  unfold ContextStore.pushLog ContextStore.storeLogTerm ContextStore.storeLogData
    ContextStore.storeLogsSize
  split
  · rfl
  split
  · rfl
  split
  · rfl
  simp only
  split
  · exact hput ..
  split
  · rw [hput, hput]
  split
  · rw [hput, hput, hput]
  · change (ContextStore.put ok _ _ _).2.currentTerm = _
    rw [hput, hput, hput]

end Node

/-! ## User callbacks -/

/-- User callbacks that stay within the leadership. -/
structure Env.Mild (env : Env) : Prop where
  onCommitted : ∀ id command n, Node.Stays n (env.onCommitted id command n)
  onReverted : ∀ id n, Node.Stays n (env.onReverted id n)
  onResponse : ∀ response n, Node.Stays n (env.onResponse response n)
  onLifecycle : ∀ state n, Node.Stays n (env.onLifecycle state n)

namespace Node

section

variable {env : Env} (henv : env.Mild)
include henv

theorem stays_resolve (promise : Nat) (response : CommandCommitResponse) (n : Node) :
    Stays n (resolve env promise response n) :=
  (Stays.emit _ n).trans (henv.onResponse _ _)

theorem stays_invokeCommitCallback (log : LogEntry) (n : Node) :
    Stays n (invokeCommitCallback env log n) :=
  (Stays.emit _ n).trans (henv.onCommitted _ _ _)

theorem stays_invokeRevertCallback (id : Nat) (n : Node) :
    Stays n (invokeRevertCallback env id n) :=
  (Stays.emit _ n).trans (henv.onReverted _ _)

theorem stays_completeCommit (promise : Nat) (log : LogEntry) (result : Bool) (n : Node) :
    Stays n (completeCommit env promise log result n) := by
  unfold completeCommit
  simp only
  split
  · have hpush := (stays_pushLog env.putOk (some log) n).trans
      (stays_invokeCommitCallback henv log _)
    exact hpush.trans (stays_resolve henv _ _ _)
  · exact stays_resolve henv _ _ _

/-- A call of `commit_command`, from anywhere. -/
theorem stays_commitCommand (command : Option Command) (n : Node) :
    Stays n (commitCommand env command n) := by
  have hnew : Stays n { n with promises := n.promises + 1 } := .of_eq rfl rfl rfl
  unfold commitCommand
  simp only
  split
  · exact hnew.trans (stays_resolve henv _ _ _)
  rename_i hl
  split
  · exact hnew.trans (stays_completeCommit henv _ _ _ _)
  unfold setPendingCommit
  simp only [ne_eq, not_true_eq_false, if_false]
  split
  · exact hnew.trans (stays_resolve henv _ _ _)
  · have hl' : n.state = .leader := by simpa [isLeader] using hl
    refine ⟨rfl, rfl, fun commit hc => .inr ⟨hl', ?_⟩⟩
    cases hc
    rfl

theorem stays_calls {n n' : Node} (h : Calls env n n') : Stays n n' := by
  induction h with
  | nothing => exact .refl n
  | commitCommand command _ ih => exact ih.trans (stays_commitCommand henv command _)

end

end Node

/-- **Callbacks that call back stay within the leadership.** -/
theorem Env.Reentrant.mild {env : Env} (h : env.Reentrant) : env.Mild := by
  induction h with
  | @quiet env h1 h2 h3 h4 =>
    refine ⟨fun id command n => ?_, fun id n => ?_, fun response n => ?_, fun state n => ?_⟩
    · rw [h1]
      exact .refl n
    · rw [h2]
      exact .refl n
    · rw [h3]
      exact .refl n
    · rw [h4]
      exact .refl n
  | calls _ _ h1 h2 h3 h4 ih =>
    exact ⟨fun id command n => Node.stays_calls ih (h1 id command n),
      fun id n => Node.stays_calls ih (h2 id n),
      fun response n => Node.stays_calls ih (h3 response n),
      fun state n => Node.stays_calls ih (h4 state n)⟩

namespace Node

/-! ## Broadcasts -/

/-- A move that sends requests, and may drop the pending commit. -/
def Sends (n n' : Node) : Prop :=
  ∃ p es, (p = none ∨ p = n.pendingCommit) ∧
    (∀ e ∈ es, ∃ dst request, e = .sendAppendEntries dst request) ∧
    n' = { n with pendingCommit := p, trace := n.trace ++ es }

namespace Sends

variable {n n' n'' : Node}

theorem refl (n : Node) : Sends n n := ⟨n.pendingCommit, [], .inr rfl, by simp, by simp⟩

theorem trans (h : Sends n n') (h' : Sends n' n'') : Sends n n'' := by
  obtain ⟨p, es, hp, hes, rfl⟩ := h
  obtain ⟨p', es', hp', hes', rfl⟩ := h'
  refine ⟨p', es ++ es', ?_, fun e he => ?_, by simp⟩
  · rcases hp' with rfl | rfl
    · exact .inl rfl
    · exact hp
  · rcases List.mem_append.1 he with he | he
    · exact hes e he
    · exact hes' e he

end Sends

theorem getPendingCommit_sends (n : Node) : Sends n n.getPendingCommit.2 := by
  unfold getPendingCommit
  split
  · exact .refl n
  split
  · exact ⟨none, [], .inl rfl, by simp, by simp⟩
  · exact .refl n

theorem onLogGetRequest_sends (id : Nat) (n : Node) : Sends n (n.onLogGetRequest id).2 := by
  have h := getPendingCommit_sends n
  unfold onLogGetRequest
  generalize n.getPendingCommit = r at h ⊢
  obtain ⟨commit, n'⟩ := r
  cases commit with
  | none => exact h
  | some commit =>
    simp only
    split <;> exact h

theorem broadcastTo_sends (log : Option LogEntry) (node : OtherNode) (n : Node) :
    Sends n (broadcastTo log node n) := by
  have hentry : ∀ request, Sends n (fillEntry log node.nextIndex request n).2 := by
    intro request
    have h := onLogGetRequest_sends node.nextIndex n
    unfold fillEntry
    generalize n.onLogGetRequest node.nextIndex = r at h ⊢
    obtain ⟨entry, n'⟩ := r
    split
    · cases entry <;> exact h
    · exact .refl n
  have hprev : ∀ (request : AppendEntriesRequest) (m : Node),
      Sends m (fillPrev node.nextIndex request m).2 := by
    intro request m
    have h := onLogGetRequest_sends (node.nextIndex - 1) m
    unfold fillPrev
    generalize m.onLogGetRequest (node.nextIndex - 1) = r at h ⊢
    obtain ⟨entry, m'⟩ := r
    split
    · cases entry <;> exact h
    · exact .refl m
  have hemit : ∀ (request : AppendEntriesRequest) (m : Node),
      Sends m (m.emit (.sendAppendEntries node.nodeId request)) := fun request m =>
    ⟨m.pendingCommit, [_], .inr rfl, by simp, rfl⟩
  exact ((hentry _).trans (hprev _ _)).trans (hemit _ _)

/-- **A broadcast sends requests and does nothing else**, but for dropping a stale pending
commit. -/
theorem broadcast_sends (n : Node) : Sends n n.broadcast := by
  have hfold : ∀ (log : Option LogEntry) (nodes : List OtherNode) (m : Node),
      Sends m (nodes.foldl (fun m node => broadcastTo log node m) m) := by
    intro log nodes
    induction nodes with
    | nil => exact .refl
    | cons node nodes ih => exact fun m => (broadcastTo_sends log node m).trans (ih _)
  have h := getPendingCommit_sends n
  unfold broadcast
  generalize n.getPendingCommit = r at h ⊢
  obtain ⟨pending, n'⟩ := r
  exact h.trans (hfold _ _ _)

/-! ## The state machine -/

theorem stays_handleLifecycle {env : Env} (henv : env.Mild) (event : LifecycleEvent) (n : Node) :
    Stays n (handleLifecycle env event n) := by
  unfold handleLifecycle
  split
  · exact .refl n
  · rename_i next _
    have hset : Stays n ({ n with lifecycle := next }.emit (.lifecycle next)) := .of_eq rfl rfl rfl
    exact hset.trans (henv.onLifecycle _ _)

/-- Leaving Leader leaves nothing pending. -/
theorem exitState_leader {env : Env} (henv : env.Mild) (hpatient : env.Patient) {n : Node}
    (hs : n.state = .leader) :
    (exitState env .leader n).pendingCommit = none ∧
      (exitState env .leader n).store.currentTerm = n.store.currentTerm := by
  change (cancelPendingCommit env n.stopBroadcastTimer).pendingCommit = none ∧
    (cancelPendingCommit env n.stopBroadcastTimer).store.currentTerm = _
  unfold cancelPendingCommit
  cases hp : n.pendingCommit with
  | none =>
    rw [show n.stopBroadcastTimer.pendingCommit = none from hp]
    exact ⟨hp, rfl⟩
  | some commit =>
    rw [show n.stopBroadcastTimer.pendingCommit = some commit from hp]
    refine ⟨hpatient _ _ rfl hs rfl, ?_⟩
    exact (stays_completeCommit henv _ _ _ _).term

section

variable {env : Env} (henv : env.Mild)
include henv

/-- The end of a transition: the new state is entered with nothing pending. -/
theorem enter_held {startElection : Node → Node} {n : Node} (hn : n.pendingCommit = none)
    (hstart : n.state = .candidate → ∀ m : Node, m.state = .candidate → m.pendingCommit = none →
      (startElection m).PendingHeld) :
    (entered env startElection n).PendingHeld := by
  have hstay := stays_handleLifecycle henv (lifecycleEvent n.state) n
  have hheld := hstay.held (.of_none hn)
  unfold entered
  simp only [hstay.state]
  cases hs : n.state with
  | candidate =>
    rw [hs] at hstay
    exact hstart hs _ (hstay.state.trans hs) (hstay.none (by rw [hs]; decide) hn)
  | _ =>
    rw [hs] at hheld
    exact (Stays.of_eq rfl rfl rfl).held hheld

/-- A new term or a discovered leader ends the leadership, and the pending commit with it. -/
theorem raise_down_held (hpatient : env.Patient) {ev : Event}
    (hev : ev = .newTermReceived ∨ ev = .leaderDiscovered) {n : Node}
    (hn : ∀ commit ∈ n.pendingCommit, n.state = .leader) : (raise env ev n).PendingHeld := by
  have hnone : n.state ≠ .leader → n.pendingCommit = none := by
    intro hs
    cases hp : n.pendingCommit with
    | none => rfl
    | some commit => exact absurd (hn commit hp) hs
  rcases transitionMap_down hev n.state with ⟨hs, htr⟩ | ⟨hs, htr⟩
  · rw [raise_none htr]
    refine .of_none (hnone ?_)
    rcases hs with hs | hs <;> rw [hs] <;> decide
  · rw [raise_some htr]
    refine enter_held henv ?_ fun h => by cases h
    rcases hs with hs | hs <;> rw [hs]
    · exact hnone (by rw [hs]; decide)
    · exact (exitState_leader henv hpatient hs).1

theorem raise_elected_held {n : Node} (hn : n.PendingHeld) :
    (raise env .elected n).PendingHeld := by
  unfold raise handleWith
  cases hs : n.state with
  | candidate =>
    simp only [transitionMap, onEvent, hs, exitState]
    exact enter_held henv (n := { n with state := .leader })
      (hn.none (by rw [hs]; decide)) fun h => by cases h
  | _ => exact hn

/-! ## Terms and elections -/

omit henv in
theorem stays_resetVote (n : Node) : Stays n (resetVote env n) := by
  have h := stays_setVotedFor env.putOk 0 n
  have hreset : Stays n { (n.onStore (·.setVotedFor env.putOk 0)).2 with
      store := (n.onStore (·.setVotedFor env.putOk 0)).2.store.resetVoteReceived } :=
    .of_eq rfl h.term rfl
  exact hreset.trans (stays_setVoted env.putOk false _)

omit henv in
theorem stays_voteForMe (n : Node) : Stays n (voteForMe env n) := by
  have h := (stays_setVotedFor env.putOk n.nodeId n).trans (stays_setVoted env.putOk true _)
  exact .of_eq rfl h.term rfl

omit henv in
/-- A stored term moves nothing but the term. -/
theorem setTerm_frame (env : Env) (t : Nat) (n : Node) :
    (resetVote env (n.onStore (·.setCurrentTerm env.putOk t)).2).state = n.state ∧
    (resetVote env (n.onStore (·.setCurrentTerm env.putOk t)).2).pendingCommit =
      n.pendingCommit := ⟨rfl, rfl⟩

theorem updateTerm_held (hpatient : env.Patient) {n : Node} (hn : n.PendingHeld) (t : Nat) :
    (updateTerm env t false n).2.PendingHeld := by
  unfold updateTerm
  split
  · exact hn
  · simp only [if_true]
    apply raise_down_held henv hpatient (.inl rfl)
    intro commit hc
    obtain ⟨h1, h2⟩ := setTerm_frame env t n
    rw [h2] at hc
    rw [h1]
    exact (hn commit hc).1

omit henv in
/-- An election raises the term of a node without a pending commit. -/
theorem increaseTerm_frame (env : Env) (n : Node) :
    (increaseTerm env n).state = n.state ∧
      (increaseTerm env n).pendingCommit = n.pendingCommit := by
  unfold increaseTerm updateTerm
  split
  · exact ⟨rfl, rfl⟩
  · exact setTerm_frame env _ n

theorem checkElected_held {n : Node} (hn : n.PendingHeld) : (checkElected env n).PendingHeld := by
  unfold checkElected
  split
  · exact hn
  · have hset : Stays n { n with
        otherNodes := n.otherNodes.map (setMatchIndex ((n.store.lastLog.map (·.id)).getD 0)) } :=
      .of_eq rfl rfl rfl
    exact raise_elected_held henv (hset.held hn)

theorem startElection_held {n : Node} (hn : n.pendingCommit = none) :
    (startElection env n).PendingHeld := by
  obtain ⟨-, hp⟩ := increaseTerm_frame env n
  have hvote : Stays (increaseTerm env n) (voteForMe env (resetVote env (increaseTerm env n))) :=
    (stays_resetVote _).trans (stays_voteForMe _)
  have hheld := hvote.held (.of_none (hp.trans hn))
  unfold startElection requestVote
  simp only
  rw [foldl_requestVote]
  exact checkElected_held henv ((Stays.of_eq rfl rfl rfl).held hheld)

theorem onElectionTimer_held {n : Node} (hn : n.PendingHeld) :
    (onElectionTimer env n).PendingHeld := by
  unfold onElectionTimer
  split
  · exact (Stays.of_eq rfl rfl rfl).held hn
  unfold handle handleWith
  cases hs : n.state with
  | follower =>
    simp only [transitionMap, onEvent, hs, exitState]
    exact enter_held henv (n := { n with state := .candidate }) (hn.none (by rw [hs]; decide))
      fun _ m _ hm => startElection_held henv hm
  | candidate =>
    simp only [transitionMap, onEvent]
    exact startElection_held henv (hn.none (by rw [hs]; decide))
  | _ => exact hn

theorem onRequestVoteResponse_held (hpatient : env.Patient) {n : Node} (hn : n.PendingHeld)
    (response : RequestVoteResponse) : (onRequestVoteResponse env response n).PendingHeld := by
  unfold onRequestVoteResponse
  split
  · exact hn
  have hterm := updateTerm_held henv hpatient hn response.term
  simp only
  split
  · exact hterm
  split
  · exact hterm
  · exact checkElected_held henv ((Stays.of_eq rfl rfl rfl).held hterm)

theorem onRequestVoteRequested_held (hpatient : env.Patient) {n : Node} (hn : n.PendingHeld)
    (request : RequestVoteRequest) :
    (onRequestVoteRequested env request n).2.PendingHeld := by
  unfold onRequestVoteRequested
  split
  · exact hn
  have hterm := updateTerm_held henv hpatient hn request.term
  unfold vote
  simp only
  split
  · exact ((stays_setVotedFor _ _ _).trans (stays_setVoted _ _ _)).held hterm
  · exact hterm

/-! ## Replication -/

omit henv in
theorem stays_broadcast (n : Node) : Stays n n.broadcast := by
  obtain ⟨p, es, hp, -, he⟩ := n.broadcast_sends
  rw [he]
  refine ⟨rfl, rfl, fun commit hc => ?_⟩
  rcases hp with rfl | rfl
  · cases hc
  · exact .inl ⟨commit, hc, rfl⟩

theorem stays_handlePendingCommitResponse (id commitIndex term : Nat) (success : Bool) (n : Node) :
    Stays n (handlePendingCommitResponse env id commitIndex term success n) := by
  unfold handlePendingCommitResponse
  cases hp : n.pendingCommit with
  | none => exact .refl n
  | some commit =>
    simp only
    split
    · exact .refl n
    split
    · refine ⟨rfl, rfl, fun commit' hc => .inl ⟨commit, hp, ?_⟩⟩
      cases hc
      rfl
    · exact .of_clear (stays_completeCommit henv _ _ _ _)

theorem onAppendEntriesResponse_held (hpatient : env.Patient) {n : Node} (hn : n.PendingHeld)
    (id : Nat) (request : AppendEntriesRequest) (response : AppendEntriesResponse) :
    (onAppendEntriesResponse env id request response n).PendingHeld := by
  have hpeer : ({ n with otherNodes := n.otherNodes.map fun node =>
      if node.nodeId = id then updateIndex request response node else node } : Node).PendingHeld :=
    (Stays.of_eq rfl rfl rfl).held hn
  unfold onAppendEntriesResponse onBroadcastResponse
  simp only
  apply (stays_handlePendingCommitResponse henv _ _ _ _ _).held
  split
  · exact updateTerm_held henv hpatient hpeer _
  · exact hpeer

theorem stays_pushRequested (request : AppendEntriesRequest) (n : Node) :
    Stays n (pushRequested env request n).2 := by
  have h := stays_pushLog env.putOk
    (some ⟨request.leaderCommit, request.term, some request.entries⟩) n
  unfold pushRequested
  simp only
  split
  · exact h
  · exact h.trans (stays_invokeCommitCallback henv _ _)

theorem stays_requestLocalCommit (request : AppendEntriesRequest) (n : Node) :
    Stays n (requestLocalCommit env request n).2 := by
  unfold requestLocalCommit
  split
  · exact stays_pushRequested henv request n
  split
  · exact .refl n
  split
  · exact ((stays_revertLog env.putOk _ n).trans (stays_invokeRevertCallback henv _ _)).trans
      (stays_pushRequested henv request _)
  · exact stays_pushRequested henv request n

theorem stays_appendRequested (request : AppendEntriesRequest) (n : Node) :
    Stays n (appendRequested env request n).2 := by
  unfold appendRequested
  split
  · exact .refl n
  split
  · exact stays_requestLocalCommit henv request n
  split
  · exact .refl n
  split
  · exact stays_revertLog env.putOk _ n
  · exact stays_requestLocalCommit henv request n

theorem onAppendEntriesRequested_held (hpatient : env.Patient) {n : Node} (hn : n.PendingHeld)
    (request : AppendEntriesRequest) :
    (onAppendEntriesRequested env request n).2.PendingHeld := by
  unfold onAppendEntriesRequested
  split
  · exact hn
  simp only
  apply (stays_appendRequested henv request _).held
  split
  · exact hn
  · have hterm := updateTerm_held henv hpatient hn request.term
    exact raise_down_held henv hpatient (.inr rfl) fun commit hc => (hterm commit hc).1

/-! ## Callbacks -/

omit henv in
theorem onBroadcastTimer_held {n : Node} (hn : n.PendingHeld) :
    (handle env .broadcastTimedout n).PendingHeld := by
  unfold handle handleWith
  cases hs : n.state with
  | leader =>
    simp only [transitionMap, onEvent]
    exact (stays_broadcast n).held hn
  | _ => exact hn

/-- **A callback keeps the pending commit with its leadership.** -/
theorem run_held (hpatient : env.Patient) {n : Node} (hn : n.PendingHeld) (input : Input) :
    (run env input n).PendingHeld := by
  have hn' : ({ n with trace := [] } : Node).PendingHeld := hn
  unfold run dispatch
  cases input with
  | electionTimer =>
    simp only
    split
    · exact onElectionTimer_held henv hn'
    · exact hn'
  | broadcastTimer =>
    simp only
    split
    · exact onBroadcastTimer_held hn'
    · exact hn'
  | commitCommand command => exact (stays_commitCommand henv command _).held hn'
  | appendEntries request =>
    exact (Stays.emit _ _).held (onAppendEntriesRequested_held henv hpatient hn' request)
  | requestVote request =>
    exact (Stays.emit _ _).held (onRequestVoteRequested_held henv hpatient hn' request)
  | appendEntriesResponse id request response =>
    exact onAppendEntriesResponse_held henv hpatient hn' id request response
  | requestVoteResponse response =>
    exact onRequestVoteResponse_held henv hpatient hn' response

theorem create_held (ids : List Nat) (me : Nat) (db : LevelDB) :
    (create env ids me db).PendingHeld := by
  have hstart : ∀ n : Node, n.state = .standby → n.pendingCommit = none →
      (handle env .started n).PendingHeld := by
    intro n hs hp
    unfold handle handleWith
    simp only [hs, transitionMap, onEvent, exitState]
    exact enter_held henv (n := { n with state := .follower }) hp fun h => by cases h
  exact hstart _ rfl rfl

end

end Node

/-- **A pending commit exists only under the leadership that created it**, in every state of every
run in which no callback of a commit that its leader's step-down cancels makes a new one. -/
theorem pending_within_leadership {env : Env} {ids : List Nat} {me : Nat} {db : LevelDB}
    {h : List Node} (henv : env.Reentrant)
    (hr : (Node.reentrant env ids me db).Run (fun _ a => a.1.Reentrant ∧ a.1.Patient) h) :
    ∀ n ∈ h, n.PendingHeld := by
  apply hr.forall_mem (Node.create_held henv.mild ids me db)
  intro n a n' hn ha hs
  obtain ⟨-, hs⟩ := Option.ite_none_left_eq_some.1 hs
  cases hs
  exact Node.run_held ha.1.mild ha.2 hn a.2

/-- A user that commits a command when the node is activated. -/
def Env.eager : Env := { Env.plain with
  onLifecycle := fun state n =>
    if state = .active then Node.commitCommand .plain (some [1]) n else n }

theorem Env.plain_reentrant : Env.plain.Reentrant :=
  .quiet (fun _ _ _ => rfl) (fun _ _ => rfl) (fun _ _ => rfl) fun _ _ => rfl

theorem Env.eager_reentrant : Env.eager.Reentrant := by
  refine .calls Env.plain_reentrant rfl (fun _ _ _ => .nothing) (fun _ _ => .nothing)
    (fun _ _ => .nothing) fun state n => ?_
  change Node.Calls .plain n
    (if state = .active then Node.commitCommand .plain (some [1]) n else n)
  split
  · exact .commitCommand _ .nothing
  · exact .nothing

/-- A command is pending from the moment the node is leader, and gone when it steps down. -/
theorem pending_within_leadership_eager_user :
    ∃ h, (Node.reentrant .eager [0, 1] 0 .empty).Run
        (fun _ a => a.1.Reentrant ∧ a.1.Patient) h ∧
      (∃ n ∈ h, n.pendingCommit.isSome ∧ n.state = .leader) ∧ ∀ n ∈ h, n.PendingHeld := by
  let as : List (Env × Input) := [.electionTimer, .requestVoteResponse ⟨1, true⟩,
    .appendEntries ⟨2, 1, 0, 0, [], 0⟩].map (Env.eager, ·)
  have hok : ∀ a ∈ as, Node → true = true → a.1.Reentrant ∧ a.1.Patient := by
    intro a ha _ _
    obtain ⟨input, -, rfl⟩ := List.mem_map.1 ha
    exact ⟨Env.eager_reentrant, fun _ _ _ _ hp => hp⟩
  obtain ⟨h, hr, hc⟩ := Lib.System.exists_run_of_mem
    (S := Node.reentrant .eager [0, 1] 0 .empty) (fun _ _ => true) as
    (fun h => h.any fun n => n.pendingCommit.isSome && n.state = .leader)
    (by decide +kernel) hok
  simp only [List.any_eq_true, Bool.and_eq_true, decide_eq_true_eq] at hc
  exact ⟨h, hr, hc, pending_within_leadership Env.eager_reentrant hr⟩

/-- A user that tries again when a commit fails. -/
def Env.retry : Env := { Env.plain with
  onResponse := fun response n =>
    if response.result = false ∧ response.command.isSome then
      Node.commitCommand .plain response.command n
    else n }

theorem Env.retry_reentrant : Env.retry.Reentrant := by
  refine .calls Env.plain_reentrant rfl (fun _ _ _ => .nothing) (fun _ _ => .nothing)
    (fun response n => ?_) fun _ _ => .nothing
  change Node.Calls .plain n (if response.result = false ∧ response.command.isSome then
    Node.commitCommand .plain response.command n else n)
  split
  · exact .commitCommand _ .nothing
  · exact .nothing

/-- Node 0 steps down for a candidate of term 2 with a command pending, and the user's second try
is pending in the follower. -/
theorem pending_outlives_leadership :
    ∃ h, (Node.reentrant .retry [0, 1] 0 .empty).Run (fun _ a => a.1.Reentrant) h ∧
      ¬ ∀ n ∈ h, n.PendingHeld := by
  let as : List (Env × Input) := [.electionTimer, .requestVoteResponse ⟨1, true⟩,
    .commitCommand (some [1]), .requestVote ⟨2, 1, 0, 0⟩].map (Env.retry, ·)
  have hok : ∀ a ∈ as, Node → true = true → a.1.Reentrant := by
    intro a ha _ _
    obtain ⟨input, -, rfl⟩ := List.mem_map.1 ha
    exact Env.retry_reentrant
  obtain ⟨h, hr, hc⟩ := Lib.System.exists_run_of_mem
    (S := Node.reentrant .retry [0, 1] 0 .empty) (fun _ _ => true) as
    (fun h => h.any fun n => n.pendingCommit.isSome && n.state = .follower)
    (by decide +kernel) hok
  simp only [List.any_eq_true, Bool.and_eq_true, decide_eq_true_eq] at hc
  obtain ⟨n, hn, hp, hs⟩ := hc
  refine ⟨h, hr, fun hheld => ?_⟩
  obtain ⟨commit, hcommit⟩ := Option.isSome_iff_exists.1 hp
  have hleader := (hheld n hn commit hcommit).1
  rw [hs] at hleader
  cases hleader

end Foros
