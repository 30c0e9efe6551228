import Foros.Raft.Life

/-!
# What callbacks do to the state machines

A callback leaves the raft state, the lifecycle state and the timers alone, or it makes transitions
of the raft state machine; each transition stops and starts timers and may notify the user of a new
lifecycle state (`Control`). Every callback is made of these, also when `Put`s fail (`control_run`),
and so is the start of a node (`control_create`). The transitions of one callback go one way: up
towards the leader, or down to the follower.
-/

namespace Foros

/-- Whether an event leads up towards the leader or down to the follower. -/
def Event.up : Event → Option Bool
  | .started | .timedout | .elected => some true
  | .leaderDiscovered | .newTermReceived => some false
  | .terminated | .broadcastTimedout => none

namespace Node

/-- `n'` has the states and the timers of `n`, and has notified the user of nothing more. -/
structure KeepsControl (n n' : Node) : Prop where
  state : n'.state = n.state
  lifecycle : n'.lifecycle = n.lifecycle
  election : n'.electionTimer = n.electionTimer
  broadcast : n'.broadcastTimer = n.broadcastTimer
  told : n'.told = n.told

/-- A transition to the state `next`. -/
structure Entered (next : StateType) (n n' : Node) : Prop where
  state : n'.state = next
  lifecycle : n'.lifecycle = (lifecycleMap n.lifecycle (lifecycleEvent next)).getD n.lifecycle
  election : n'.electionTimer = (n.electionTimer || decide (next = .follower))
  broadcast : n'.broadcastTimer =
    (n.broadcastTimer && decide (n.state ≠ .leader) || decide (next = .leader))
  told : n'.told = n.told ++ (lifecycleMap n.lifecycle (lifecycleEvent next)).toList

/-- What a callback that leads `up` or down does to the state machines and the timers. No event
leads to standby but `kTerminated`, which is not raised. -/
inductive Control (up : Bool) : Node → Node → Prop
  | keep {n n' : Node} : KeepsControl n n' → Control up n n'
  | rearm {n : Node} : n.state ≠ .standby → Control up n n.resetElectionTimer
  | enter {n n' : Node} {event : Event} {next : StateType} : event.up = some up →
      transitionMap n.state event = some (some next) → Entered next n n' → Control up n n'
  | trans {n n' n'' : Node} : Control up n n' → Control up n' n'' → Control up n n''

variable {n n' n'' : Node} {p : Nat → Bool} {up : Bool}

theorem KeepsControl.refl (n : Node) : KeepsControl n n := ⟨rfl, rfl, rfl, rfl, rfl⟩

theorem KeepsControl.trans (h : KeepsControl n n') (h' : KeepsControl n' n'') :
    KeepsControl n n'' :=
  ⟨h'.state.trans h.state, h'.lifecycle.trans h.lifecycle, h'.election.trans h.election,
    h'.broadcast.trans h.broadcast, h'.told.trans h.told⟩

theorem KeepsControl.emit {e : Effect} (he : e.toldState = none) (n : Node) :
    KeepsControl n (n.emit e) :=
  ⟨rfl, rfl, rfl, rfl, by simp [Node.told, Node.emit, he]⟩

theorem KeepsControl.onStore {α : Type} (f : ContextStore → α × ContextStore) (n : Node) :
    KeepsControl n (n.onStore f).2 := by
  refine ⟨rfl, rfl, rfl, rfl, ?_⟩
  have hnone : ((f { n.store with journal := [] }).2.journal.map fun p =>
      Effect.put p.1 p.2).filterMap Effect.toldState = [] :=
    List.filterMap_eq_nil_iff.2 fun e he => by
      obtain ⟨q, -, rfl⟩ := List.mem_map.1 he
      rfl
  unfold Node.told Node.onStore
  rw [List.filterMap_append, hnone, List.append_nil]

/-! ## Operations that leave the state machines alone -/

theorem keeps_resetVote (n : Node) : KeepsControl n (resetVote (.faulty p) n) := by
  unfold resetVote
  refine KeepsControl.trans ?_ (.onStore _ _)
  exact (KeepsControl.onStore (·.setVotedFor p 0) n).trans ⟨rfl, rfl, rfl, rfl, rfl⟩

theorem keeps_voteForMe (n : Node) : KeepsControl n (voteForMe (.faulty p) n) :=
  ((KeepsControl.onStore _ n).trans (.onStore _ _)).trans ⟨rfl, rfl, rfl, rfl, rfl⟩

theorem keeps_vote (term id lastIndex lastTerm : Nat) (n : Node) :
    KeepsControl n (vote (.faulty p) term id lastIndex lastTerm n).2 := by
  simp only [vote]
  split
  · exact (KeepsControl.onStore _ n).trans (.onStore _ _)
  · exact .refl n

theorem keeps_completeCommit (promise : Nat) (log : LogEntry) (result : Bool) (n : Node) :
    KeepsControl n (completeCommit (.faulty p) promise log result n) := by
  unfold completeCommit
  split
  · exact ((KeepsControl.onStore _ n).trans (.emit rfl _)).trans (.emit rfl _)
  · exact .emit rfl n

theorem keeps_cancelPendingCommit (n : Node) :
    KeepsControl n (cancelPendingCommit (.faulty p) n) := by
  unfold cancelPendingCommit
  split
  · exact .refl n
  · have hclear : KeepsControl n { n with pendingCommit := none } := ⟨rfl, rfl, rfl, rfl, rfl⟩
    exact hclear.trans (keeps_completeCommit ..)

theorem keeps_getPendingCommit (n : Node) : KeepsControl n n.getPendingCommit.2 := by
  unfold getPendingCommit
  split
  · exact .refl n
  · split <;> exact ⟨rfl, rfl, rfl, rfl, rfl⟩

theorem keeps_onLogGetRequest (id : Nat) (n : Node) : KeepsControl n (n.onLogGetRequest id).2 := by
  have h := keeps_getPendingCommit n
  unfold onLogGetRequest
  split
  rename_i commit m he
  rw [he] at h
  split
  · split <;> exact h
  · exact h

theorem keeps_fillEntry (log : Option LogEntry) (nextIndex : Nat) (request : AppendEntriesRequest)
    (n : Node) : KeepsControl n (fillEntry log nextIndex request n).2 := by
  unfold fillEntry
  split
  · have h := keeps_onLogGetRequest nextIndex n
    split
    rename_i entry m he
    rw [he] at h
    split <;> exact h
  · exact .refl n

theorem keeps_fillPrev (nextIndex : Nat) (request : AppendEntriesRequest) (n : Node) :
    KeepsControl n (fillPrev nextIndex request n).2 := by
  unfold fillPrev
  split
  · have h := keeps_onLogGetRequest (nextIndex - 1) n
    split
    rename_i entry m he
    rw [he] at h
    split <;> exact h
  · exact .refl n

theorem keeps_broadcastTo (log : Option LogEntry) (node : OtherNode) (n : Node) :
    KeepsControl n (broadcastTo log node n) := by
  have h := keeps_fillEntry log node.nextIndex
    { term := n.store.currentTerm, leaderId := n.nodeId } n
  exact (h.trans (keeps_fillPrev ..)).trans (.emit rfl _)

theorem keeps_foldl {f : Node → OtherNode → Node} (hf : ∀ m node, KeepsControl m (f m node)) :
    ∀ (nodes : List OtherNode) (n : Node), KeepsControl n (nodes.foldl f n)
  | [], n => .refl n
  | node :: nodes, n => (hf n node).trans (keeps_foldl hf nodes (f n node))

theorem keeps_broadcast (n : Node) : KeepsControl n n.broadcast := by
  have h := keeps_getPendingCommit n
  unfold broadcast
  exact h.trans (keeps_foldl (fun m node => keeps_broadcastTo _ node m) _ _)

theorem keeps_handlePendingCommitResponse (id commitIndex term : Nat) (success : Bool)
    (n : Node) :
    KeepsControl n (handlePendingCommitResponse (.faulty p) id commitIndex term success n) := by
  unfold handlePendingCommitResponse
  split
  · exact .refl n
  split
  · exact .refl n
  simp only
  split
  · exact ⟨rfl, rfl, rfl, rfl, rfl⟩
  · have hclear : KeepsControl n { n with pendingCommit := none } := ⟨rfl, rfl, rfl, rfl, rfl⟩
    exact hclear.trans (keeps_completeCommit ..)

theorem keeps_setPendingCommit (commit : PendingCommit) (n : Node) :
    KeepsControl n (n.setPendingCommit commit).2 := by
  unfold setPendingCommit
  split
  · exact .refl n
  · split <;> exact ⟨rfl, rfl, rfl, rfl, rfl⟩

theorem keeps_commitCommand (command : Option Command) (n : Node) :
    KeepsControl n (commitCommand (.faulty p) command n) := by
  have hpromise : KeepsControl n { n with promises := n.promises + 1 } := ⟨rfl, rfl, rfl, rfl, rfl⟩
  unfold commitCommand
  simp only
  split
  · exact hpromise.trans (.emit rfl _)
  split
  · exact hpromise.trans (keeps_completeCommit ..)
  have hset := hpromise.trans (keeps_setPendingCommit
    ⟨⟨n.store.logsSize, n.store.currentTerm, command⟩, n.promises, fun _ => none⟩ _)
  split
  · exact hset.trans (.emit rfl _)
  · exact hset

theorem keeps_pushRequested (request : AppendEntriesRequest) (n : Node) :
    KeepsControl n (pushRequested (.faulty p) request n).2 := by
  simp only [pushRequested]
  split
  · exact .onStore _ n
  · exact (KeepsControl.onStore _ n).trans (.emit rfl _)

theorem keeps_requestLocalCommit (request : AppendEntriesRequest) (n : Node) :
    KeepsControl n (requestLocalCommit (.faulty p) request n).2 := by
  unfold requestLocalCommit
  split
  · exact keeps_pushRequested request n
  split
  · exact .refl n
  split
  · exact ((KeepsControl.onStore _ n).trans (.emit rfl _)).trans (keeps_pushRequested ..)
  · exact keeps_pushRequested request n

theorem keeps_appendRequested (request : AppendEntriesRequest) (n : Node) :
    KeepsControl n (appendRequested (.faulty p) request n).2 := by
  unfold appendRequested
  split
  · exact .refl n
  split
  · exact keeps_requestLocalCommit request n
  split
  · exact .refl n
  split
  · exact .onStore _ n
  · exact keeps_requestLocalCommit request n

/-! ## Transitions -/

theorem Control.refl (n : Node) : Control up n n := .keep (.refl n)

/-- Once a leader, on the way up, a node is nothing else. -/
theorem Control.leader (h : Control true n n') (hs : n.state = .leader) : n'.state = .leader := by
  induction h with
  | keep hk => exact hk.state.trans hs
  | rearm _ => exact hs
  | @enter n n' event next hev ht hn =>
    rw [hs] at ht
    cases event <;> simp [transitionMap, Event.up] at ht hev
  | trans _ _ ih ih' => exact ih' (ih hs)

/-- Only a leader is activated, and only an election makes one. -/
theorem leader_of_active {lifecycle : LifecycleState} {state next : StateType} {event : Event}
    (hev : event.up = some up) (ht : transitionMap state event = some (some next))
    (hm : lifecycleMap lifecycle (lifecycleEvent next) = some .active) :
    up = true ∧ next = .leader := by
  have hnext : next = .leader := by
    cases next <;> cases lifecycle <;> simp [lifecycleMap, lifecycleEvent] at hm ⊢
  subst hnext
  refine ⟨?_, rfl⟩
  cases state <;> cases event <;> simp [transitionMap, Event.up] at ht hev
  exact hev

/-- A node that tells the user of `active` leads when the callback is over. -/
theorem Control.told_active (h : Control up n n') :
    .active ∈ n'.told → .active ∈ n.told ∨ up = true ∧ n'.state = .leader := by
  induction h with
  | keep hk => exact fun hm => .inl (hk.told ▸ hm)
  | rearm _ => exact .inl
  | @enter n n' event next hev ht hn =>
    intro hm
    rw [hn.told] at hm
    refine (List.mem_append.1 hm).imp_right fun hm => ?_
    obtain ⟨hup, hnext⟩ := leader_of_active hev ht (Option.mem_toList.1 hm)
    exact ⟨hup, hn.state.trans hnext⟩
  | trans h h' ih ih' =>
    intro hm
    rcases ih' hm with hm | hl
    · refine (ih hm).imp_right fun ⟨hup, hs⟩ => ?_
      subst hup
      exact ⟨rfl, h'.leader hs⟩
    · exact .inr hl

/-- `exit` of a leader stops the broadcast timer. -/
theorem exitState_control (n : Node) :
    (exitState (.faulty p) n.state n).lifecycle = n.lifecycle ∧
      (exitState (.faulty p) n.state n).electionTimer = n.electionTimer ∧
      (exitState (.faulty p) n.state n).broadcastTimer =
        (n.broadcastTimer && decide (n.state ≠ .leader)) ∧
      (exitState (.faulty p) n.state n).told = n.told := by
  cases hs : n.state with
  | leader =>
    have h := keeps_cancelPendingCommit (p := p) n.stopBroadcastTimer
    exact ⟨h.lifecycle, h.election, h.broadcast.trans (by simp [stopBroadcastTimer]), h.told⟩
  | _ => simp [exitState]

/-- The lifecycle state machine follows, and the user is told of a change. -/
theorem handleLifecycle_control (event : LifecycleEvent) (n : Node) :
    (handleLifecycle (.faulty p) event n).state = n.state ∧
      (handleLifecycle (.faulty p) event n).lifecycle =
        (lifecycleMap n.lifecycle event).getD n.lifecycle ∧
      (handleLifecycle (.faulty p) event n).electionTimer = n.electionTimer ∧
      (handleLifecycle (.faulty p) event n).broadcastTimer = n.broadcastTimer ∧
      (handleLifecycle (.faulty p) event n).told =
        n.told ++ (lifecycleMap n.lifecycle event).toList := by
  unfold handleLifecycle
  cases lifecycleMap n.lifecycle event with
  | none => simp
  | some next => simp [Env.faulty, Env.plain, Node.emit, told, Effect.toldState]

/-- An event that leads to another state has no callback. -/
theorem onEvent_of_transition {startElection broadcast : Node → Node} {event : Event}
    {next : StateType} (ht : transitionMap n.state event = some (some next)) :
    onEvent startElection broadcast n.state event n = n := by
  unfold onEvent
  split <;> simp_all [transitionMap]

/-- No other event leads to standby. -/
theorem ne_standby_of_transition {state next : StateType} {event : Event}
    (hev : event.up = some up) (ht : transitionMap state event = some (some next)) :
    next ≠ .standby := by
  rintro rfl
  cases state <;> cases event <;> simp [transitionMap, Event.up] at ht hev

/-- An event keeps the state, or makes a transition and enters the next one. -/
theorem control_handleWith {startElection broadcast : Node → Node}
    (hse : ∀ {n : Node}, n.state ≠ .standby → Control up n (startElection n))
    {event : Event} (hev : event.up = some up)
    (n : Node) : Control up n (handleWith (.faulty p) startElection broadcast event n) := by
  unfold Node.handleWith
  split
  · exact .refl n
  rename_i next ht
  cases next with
  | none =>
    change Control up n (onEvent startElection broadcast n.state event n)
    unfold onEvent
    split
    · exact hse (by simp_all)
    · cases hev
    · exact .refl n
  | some next =>
    rw [onEvent_of_transition ht]
    simp only
    obtain ⟨h1, h2, h3, h4⟩ := exitState_control (p := p) n
    generalize exitState (.faulty p) n.state n = m at h1 h2 h3 h4
    obtain ⟨h5, h6, h7, h8, h9⟩ := handleLifecycle_control (p := p) (lifecycleEvent next)
      { m with state := next }
    generalize handleLifecycle (.faulty p) (lifecycleEvent next) { m with state := next } = m'
      at h5 h6 h7 h8 h9
    simp only [h1, h2, h3] at h5 h6 h7 h8 h9
    replace h9 : m'.told = n.told ++ _ := h9.trans (congrArg (· ++ _) h4)
    rw [h5]
    have hne := ne_standby_of_transition hev ht
    cases next with
    | standby => exact absurd rfl hne
    | follower =>
      exact .enter hev ht ⟨h5, h6, by simp [entryState, startElectionTimer],
        by simp [entryState, startElectionTimer, h8], h9⟩
    | candidate =>
      have hin : Control up n m' := .enter hev ht ⟨h5, h6, by simp [h7], by simp [h8], h9⟩
      exact hin.trans (hse (by rw [h5]; exact hne))
    | leader =>
      exact .enter hev ht ⟨h5, h6, by simp [entryState, startBroadcastTimer, h7],
        by simp [entryState, startBroadcastTimer], h9⟩

theorem control_raise {event : Event} (hev : event.up = some up) (n : Node) :
    Control up n (raise (.faulty p) event n) :=
  control_handleWith (fun _ => .refl _) hev n

/-! ## Callbacks -/

theorem control_updateTerm (term : Nat) (self : Bool) (n : Node) :
    Control false n (updateTerm (.faulty p) term self n).2 := by
  unfold updateTerm
  split
  · exact .refl n
  have hreset : Control false n (resetVote (.faulty p) (n.onStore (·.setCurrentTerm p term)).2) :=
    .keep ((KeepsControl.onStore _ n).trans (keeps_resetVote _))
  simp only
  split
  · exact hreset.trans (control_raise rfl _)
  · exact hreset

theorem control_checkElected (n : Node) : Control true n (checkElected (.faulty p) n) := by
  unfold checkElected
  split
  · exact .refl n
  · refine .trans (.keep ?_) (control_raise rfl _)
    exact ⟨rfl, rfl, rfl, rfl, rfl⟩

theorem control_requestVote (n : Node) : Control true n (requestVote (.faulty p) n) := by
  unfold requestVote
  refine .trans (.keep ?_) (control_checkElected _)
  exact keeps_foldl (fun _ _ => .emit rfl _) n.otherNodes n

/-- A term of its own takes a node to no other state. -/
theorem keeps_increaseTerm (n : Node) : KeepsControl n (increaseTerm (.faulty p) n) := by
  unfold increaseTerm updateTerm
  split
  · exact .refl n
  · exact (KeepsControl.onStore _ n).trans (keeps_resetVote _)

theorem control_startElection (hs : n.state ≠ .standby) :
    Control true n (startElection (.faulty p) n) := by
  have hkeep := ((keeps_increaseTerm (p := p) n).trans (keeps_resetVote (p := p) _)).trans
    (keeps_voteForMe (p := p) _)
  unfold startElection
  refine .trans (.keep hkeep) (.trans (.rearm ?_) (control_requestVote _))
  rwa [hkeep.state]

theorem control_handle {event : Event} (hev : event.up = some true) (n : Node) :
    Control true n (handle (.faulty p) event n) :=
  control_handleWith control_startElection hev n

theorem control_onElectionTimer (n : Node) : Control true n (onElectionTimer (.faulty p) n) := by
  unfold onElectionTimer
  split
  · exact .keep ⟨rfl, rfl, rfl, rfl, rfl⟩
  · exact control_handle rfl n

/-- A broadcast is no transition. -/
theorem keeps_onBroadcastTimer (n : Node) :
    KeepsControl n (handle (.faulty p) .broadcastTimedout n) := by
  unfold handle handleWith
  cases hs : n.state with
  | leader => exact keeps_broadcast n
  | _ => exact .refl n

theorem control_onRequestVoteResponse (response : RequestVoteResponse) (n : Node) :
    ∃ up, Control up n (onRequestVoteResponse (.faulty p) response n) := by
  unfold onRequestVoteResponse
  split
  · exact ⟨true, .refl n⟩
  by_cases hlt : n.store.currentTerm < response.term
  · -- a new term, and the vote does not count
    have hup := control_updateTerm (p := p) response.term false n
    have htrue : (updateTerm (.faulty p) response.term false n).1 = true := by
      unfold updateTerm
      rw [if_neg (Nat.not_le.2 hlt)]
    refine ⟨false, ?_⟩
    simp only [htrue, if_true]
    exact hup
  · have hsame : updateTerm (.faulty p) response.term false n = (false, n) := by
      unfold updateTerm
      rw [if_pos (Nat.not_lt.1 hlt)]
    refine ⟨true, ?_⟩
    simp only [hsame, Bool.false_eq_true, if_false]
    split
    · exact .refl n
    · refine .trans (.keep ?_) (control_checkElected _)
      exact ⟨rfl, rfl, rfl, rfl, rfl⟩

theorem control_onRequestVoteRequested (request : RequestVoteRequest) (n : Node) :
    Control false n (onRequestVoteRequested (.faulty p) request n).2 := by
  unfold onRequestVoteRequested
  split
  · exact .refl n
  · exact (control_updateTerm request.term false n).trans (.keep (keeps_vote ..))

theorem control_onAppendEntriesResponse (id : Nat) (request : AppendEntriesRequest)
    (response : AppendEntriesResponse) (n : Node) :
    Control false n (onAppendEntriesResponse (.faulty p) id request response n) := by
  have hpeers : ∀ nodes, Control false n { n with otherNodes := nodes } := fun _ =>
    .keep ⟨rfl, rfl, rfl, rfl, rfl⟩
  unfold onAppendEntriesResponse onBroadcastResponse
  refine .trans ?_ (.keep (keeps_handlePendingCommitResponse ..))
  split
  · exact (hpeers _).trans (control_updateTerm ..)
  · exact hpeers _

theorem control_onAppendEntriesRequested (request : AppendEntriesRequest) (n : Node) :
    Control false n (onAppendEntriesRequested (.faulty p) request n).2 := by
  unfold onAppendEntriesRequested
  split
  · exact .refl n
  refine .trans ?_ (.keep (keeps_appendRequested request _))
  split
  · exact .refl n
  · refine .trans ?_ (control_raise rfl _)
    exact (control_updateTerm request.term false n).trans (.keep ⟨rfl, rfl, rfl, rfl, rfl⟩)

/-- **Every callback** keeps the state machines, or moves them by transitions up or down. -/
theorem control_run (input : Input) (n : Node) :
    ∃ up, Control up { n with trace := [] } (run (.faulty p) input n) := by
  unfold run
  generalize { n with trace := [] } = m
  cases input with
  | electionTimer =>
    refine ⟨true, ?_⟩
    simp only [dispatch]
    split
    · exact control_onElectionTimer m
    · exact .refl m
  | broadcastTimer =>
    refine ⟨true, ?_⟩
    simp only [dispatch]
    split
    · exact .keep (keeps_onBroadcastTimer m)
    · exact .refl m
  | commitCommand command => exact ⟨true, .keep (keeps_commitCommand command m)⟩
  | appendEntries request =>
    exact ⟨false, (control_onAppendEntriesRequested request m).trans (.keep (.emit rfl _))⟩
  | requestVote request =>
    exact ⟨false, (control_onRequestVoteRequested request m).trans (.keep (.emit rfl _))⟩
  | appendEntriesResponse id request response =>
    exact ⟨false, control_onAppendEntriesResponse id request response m⟩
  | requestVoteResponse response => exact control_onRequestVoteResponse response m

/-- The start of a node, from standby. -/
theorem control_create (ids : List Nat) (me : Nat) (db : LevelDB) :
    ∃ n : Node, n.state = .standby ∧ n.lifecycle = .inactive ∧ n.electionTimer = false ∧
      n.broadcastTimer = false ∧ n.told = [] ∧
      create (.faulty p) ids me db = handle (.faulty p) .started n := by
  refine ⟨_, rfl, rfl, rfl, rfl, ?_, rfl⟩
  refine List.filterMap_eq_nil_iff.2 fun e he => ?_
  obtain ⟨q, -, rfl⟩ := List.mem_map.1 he
  rfl

end Node

end Foros
