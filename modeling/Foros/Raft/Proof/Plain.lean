import Foros.Raft.Proof.Moves

/-!
# The node in a plain environment

With every `Put` succeeding and user callbacks that leave the node alone, each operation of
`Foros/Raft/Node.lean` is a short composition of three kinds of moves: the store is changed by a
list of `Put`s (`Node.stored`), an effect is emitted, or fields outside the store are set. What a
caller sees of it is the core, the visible effects, and that the lifecycle state follows the raft
state (`Node.Aligned`); `Spec` collects the three.
-/

namespace Foros

open Lib

/-! ## Visible effects -/

/-- The effects other than `Put`s, lifecycle notifications and failed commits. -/
def Effect.visible : Effect → Bool
  | .put _ _ => false
  | .lifecycle _ => false
  | .resolved _ response => response.result
  | _ => true

/-- The lifecycle state that belongs to a raft state. -/
def StateType.lifecycle : StateType → LifecycleState
  | .standby => .inactive
  | .follower => .standby
  | .candidate => .standby
  | .leader => .active

namespace Node

def visible (n : Node) : List Effect := n.trace.filter Effect.visible

/-- The lifecycle state machine follows the raft one. -/
def Aligned (n : Node) : Prop := n.lifecycle = n.state.lifecycle

theorem Aligned.isActivated {n : Node} (h : n.Aligned) :
    n.isActivated = true ↔ n.state = .leader := by
  unfold Node.isActivated
  rw [decide_eq_true_iff, h]
  cases n.state <;> simp [StateType.lifecycle]

/-- The store becomes `s`, with `puts` executed on the database. -/
def stored (s : ContextStore) (puts : List (String × Bytes)) (n : Node) : Node :=
  { n with
    store := { s with
      db := n.store.db.putAll puts
      journal := []
      attempts := n.store.attempts + puts.length }
    trace := n.trace ++ puts.map fun p => .put p.1 p.2 }

/-- `Put`s are left out by a filter that no `Put` passes. -/
theorem filter_puts {f : Effect → Bool} (hf : ∀ key value, f (.put key value) = false)
    (puts : List (String × Bytes)) : (puts.map fun p => Effect.put p.1 p.2).filter f = [] := by
  induction puts with
  | nil => rfl
  | cons p puts ih => rw [List.map_cons, List.filter_cons_of_neg (by simp [hf]), ih]

@[simp] theorem visible_stored (s : ContextStore) (puts : List (String × Bytes)) (n : Node) :
    (n.stored s puts).visible = n.visible := by
  simp [visible, stored, filter_puts (f := Effect.visible) fun _ _ => rfl]

/-! ## Operations on the store -/

theorem onStore_setVotedFor (id : Nat) (n : Node) :
    n.onStore (·.setVotedFor Env.plain.putOk id) =
      (true, n.stored { n.store with votedFor := id } [(kVotedForKey, encodeLE 4 id)]) := rfl

theorem onStore_setVoted (b : Bool) (n : Node) :
    n.onStore (·.setVoted Env.plain.putOk b) =
      (true, n.stored { n.store with voted := b } [(kVotedKey, encodeLE 1 b.toNat)]) := rfl

/-- The `Put`s of an accepted push. -/
def pushPuts (log : LogEntry) (data : Bytes) : List (String × Bytes) :=
  [(getLogTermKey log.id, encodeLE 8 log.term), (getLogDataKey log.id, data),
    (kLogSizeKey, encodeLE 8 (log.id + 1))]

theorem onStore_pushLog {log : LogEntry} {data : Bytes} {n : Node}
    (hc : log.command = some data) (hid : log.id = n.store.logs.length) :
    n.onStore (·.pushLog Env.plain.putOk (some log)) =
      (true, n.stored { n.store with logs := n.store.logs ++ [log] } (pushPuts log data)) := by
  simp only [onStore, ContextStore.pushLog, hc, hid, ne_eq, not_true_eq_false, if_false, pushPuts]
  rfl

/-- A rejected push changes nothing. -/
theorem onStore_pushLog_rejected {log : LogEntry} {n : Node}
    (h : log.command = none ∨ log.id ≠ n.store.logs.length) :
    n.onStore (·.pushLog Env.plain.putOk (some log)) = (false, n.stored n.store []) := by
  rcases h with hc | hid
  · simp only [onStore, ContextStore.pushLog, hc]
    rfl
  · cases hc : log.command <;>
      simp only [onStore, ContextStore.pushLog, hc, hid, ne_eq, not_false_eq_true, if_true] <;> rfl

theorem onStore_revertLog {id : Nat} {n : Node} (h : id < n.store.logs.length) :
    n.onStore (·.revertLog Env.plain.putOk id) =
      (true, n.stored { n.store with logs := n.store.logs.take id }
        [(kLogSizeKey, encodeLE 8 id)]) := by
  simp only [onStore, ContextStore.revertLog, show ¬ id ≥ n.store.logs.length by omega, if_false]
  rfl

theorem onStore_revertLog_rejected {id : Nat} {n : Node} (h : n.store.logs.length ≤ id) :
    n.onStore (·.revertLog Env.plain.putOk id) = (false, n.stored n.store []) := by
  simp only [onStore, ContextStore.revertLog, ge_iff_le, h, if_true]
  rfl

/-! ## Votes -/

theorem resetVote_plain (n : Node) :
    resetVote .plain n =
      (n.stored { n.store with votedFor := 0, voteReceived := 0 }
        [(kVotedForKey, encodeLE 4 0)]).stored
        { n.store with votedFor := 0, voteReceived := 0, voted := false }
        [(kVotedKey, encodeLE 1 0)] := rfl

theorem voteForMe_plain (n : Node) :
    voteForMe .plain n =
      (n.stored { n.store with votedFor := n.nodeId } [(kVotedForKey, encodeLE 4 n.nodeId)]).stored
        { n.store with
          votedFor := n.nodeId
          voted := true
          voteReceived := (n.store.voteReceived + 1) % 2 ^ 32 }
        [(kVotedKey, encodeLE 1 1)] := rfl

/-! ## Specifications -/

/-- What a move from `n` to `n'` looks like to its caller: the core afterwards, and the visible
effects it adds. -/
structure Spec (n n' : Node) (c : Core) (es : List Effect) : Prop where
  core : n'.core = c
  visible : n'.visible = n.visible ++ es
  aligned : n.Aligned → n'.Aligned

theorem Spec.refl (n : Node) : Spec n n n.core [] := ⟨rfl, by simp, id⟩

theorem Spec.trans {n n' n'' : Node} {c c' : Core} {es es' : List Effect}
    (h : Spec n n' c es) (h' : Spec n' n'' c' es') : Spec n n'' c' (es ++ es') where
  core := h'.core
  visible := by rw [h'.visible, h.visible, List.append_assoc]
  aligned := h'.aligned ∘ h.aligned

theorem Spec.congr {n n' : Node} {c c' : Core} {es es' : List Effect} (h : Spec n n' c es)
    (hc : c = c') (he : es = es') : Spec n n' c' es' := hc ▸ he ▸ h

/-- A move after one that shows nothing. -/
theorem Spec.after {n n' n'' : Node} {c c' : Core} {es : List Effect} (h : Spec n n' c [])
    (h' : Spec n' n'' c' es) : Spec n n'' c' es := by
  simpa using h.trans h'

/-- A move that leaves the stored context alone. -/
structure Other (n n' : Node) : Prop where
  nodeId : n'.nodeId = n.nodeId
  clusterSize : n'.clusterSize = n.clusterSize
  majority : n'.majority = n.majority
  peers : n'.otherNodes.map (·.nodeId) = n.otherNodes.map (·.nodeId)
  db : n'.store.db = n.store.db
  term : n'.store.currentTerm = n.store.currentTerm
  votedFor : n'.store.votedFor = n.store.votedFor
  voted : n'.store.voted = n.store.voted
  logs : n'.store.logs = n.store.logs
  trace : ∃ es, n'.trace = n.trace ++ es ∧ ∀ e ∈ es, ∀ key value, e ≠ .put key value

theorem Other.of_eq {n n' : Node} (hs : n'.store = n.store) (hi : n'.nodeId = n.nodeId)
    (hc : n'.clusterSize = n.clusterSize) (hm : n'.majority = n.majority)
    (hp : n'.otherNodes.map (·.nodeId) = n.otherNodes.map (·.nodeId))
    (ht : ∃ es, n'.trace = n.trace ++ es ∧ ∀ e ∈ es, ∀ key value, e ≠ .put key value) :
    Other n n' :=
  ⟨hi, hc, hm, hp, by rw [hs], by rw [hs], by rw [hs], by rw [hs], by rw [hs], ht⟩

theorem Other.refl (n : Node) : Other n n := .of_eq rfl rfl rfl rfl rfl ⟨[], by simp, by simp⟩

theorem Other.trans {n n' n'' : Node} (h : Other n n') (h' : Other n' n'') : Other n n'' where
  nodeId := h'.nodeId.trans h.nodeId
  clusterSize := h'.clusterSize.trans h.clusterSize
  majority := h'.majority.trans h.majority
  peers := h'.peers.trans h.peers
  db := h'.db.trans h.db
  term := h'.term.trans h.term
  votedFor := h'.votedFor.trans h.votedFor
  voted := h'.voted.trans h.voted
  logs := h'.logs.trans h.logs
  trace := by
    obtain ⟨es, he, hq⟩ := h.trace
    obtain ⟨es', he', hq'⟩ := h'.trace
    refine ⟨es ++ es', by rw [he', he, List.append_assoc], fun e hm => ?_⟩
    rcases List.mem_append.1 hm with hm | hm
    · exact hq e hm
    · exact hq' e hm

theorem Other.emit {n : Node} {e : Effect} (he : ∀ key value, e ≠ .put key value) :
    Other n (n.emit e) :=
  .of_eq rfl rfl rfl rfl rfl ⟨[e], rfl, by simpa using he⟩

/-! ## The state machines -/

/-- Effects of a transition: a lifecycle notification, or the failure of a cancelled commit. -/
def Quiet (q : List Effect) : Prop :=
  ∀ e ∈ q, (∃ l, e = .lifecycle l) ∨ ∃ p r, e = .resolved p r ∧ r.result = false

theorem Quiet.append {q q' : List Effect} (h : Quiet q) (h' : Quiet q') : Quiet (q ++ q') := by
  intro e he
  rcases List.mem_append.1 he with he | he
  · exact h e he
  · exact h' e he

theorem Quiet.visible {q : List Effect} (h : Quiet q) : q.filter Effect.visible = [] := by
  rw [List.filter_eq_nil_iff]
  intro e he
  rcases h e he with ⟨l, rfl⟩ | ⟨p, r, rfl, hr⟩
  · simp [Effect.visible]
  · simp [Effect.visible, hr]

theorem Quiet.not_put {q : List Effect} (h : Quiet q) :
    ∀ e ∈ q, ∀ key value, e ≠ .put key value := by
  rintro e he key value rfl
  rcases h _ he with ⟨l, hl⟩ | ⟨p, r, hr, -⟩
  · cases hl
  · cases hr

theorem handleLifecycle_eq (st : StateType) (n : Node) :
    ∃ q, Quiet q ∧ handleLifecycle .plain (lifecycleEvent st) n =
      { n with lifecycle := st.lifecycle, trace := n.trace ++ q } := by
  unfold handleLifecycle
  cases h : lifecycleMap n.lifecycle (lifecycleEvent st) with
  | none =>
    refine ⟨[], by simp [Quiet], ?_⟩
    have hl : n.lifecycle = st.lifecycle := by
      revert h
      cases n.lifecycle <;> cases st <;> simp [lifecycleMap, lifecycleEvent, StateType.lifecycle]
    simp [← hl]
  | some next =>
    refine ⟨[.lifecycle next], by simp [Quiet], ?_⟩
    have hl : next = st.lifecycle := by
      revert h
      cases n.lifecycle <;> cases st <;>
        simp [lifecycleMap, lifecycleEvent, StateType.lifecycle, eq_comm]
    rw [← hl]
    rfl

theorem exitState_eq (st : StateType) (n : Node) :
    ∃ q bt, Quiet q ∧ exitState .plain st n =
      { n with
        pendingCommit := if st = .leader then none else n.pendingCommit
        broadcastTimer := bt
        trace := n.trace ++ q } := by
  cases st with
  | leader =>
    cases hp : n.pendingCommit with
    | none =>
      refine ⟨[], false, by simp [Quiet], ?_⟩
      simp [exitState, cancelPendingCommit, stopBroadcastTimer, hp]
    | some commit =>
      refine ⟨[.resolved commit.promise ⟨commit.log.id, commit.log.command, false⟩], false,
        by simp [Quiet], ?_⟩
      simp only [exitState, cancelPendingCommit, stopBroadcastTimer, hp, if_true]
      rfl
  | _ => exact ⟨[], n.broadcastTimer, by simp [Quiet], by simp [exitState]⟩

/-- Raised inside a callback, an event has no callback that does anything. -/
theorem onEvent_raise (state : StateType) (ev : Event) (n : Node) :
    onEvent (fun n => n) (fun n => n) state ev n = n := by
  unfold onEvent
  split <;> rfl

/-- A state that has just become current: the user is told, and its `entry` runs. -/
def entered (env : Env) (startElection : Node → Node) (n : Node) : Node :=
  let m := handleLifecycle env (lifecycleEvent n.state) n
  entryState startElection m.state m

theorem raise_none {env : Env} {ev : Event} {n : Node} (ht : transitionMap n.state ev = none) :
    raise env ev n = n := by
  simp only [raise, handleWith, ht]

theorem raise_some {env : Env} {ev : Event} {next : StateType} {n : Node}
    (ht : transitionMap n.state ev = some (some next)) :
    raise env ev n =
      entered env (fun n => n) { exitState env n.state n with state := next } := by
  simp only [raise, handleWith, ht, onEvent_raise]
  rfl

/-- A new term or a discovered leader makes a follower of a candidate and of a leader. -/
theorem transitionMap_down {ev : Event} (hev : ev = .newTermReceived ∨ ev = .leaderDiscovered)
    (state : StateType) :
    (state = .standby ∨ state = .follower) ∧ transitionMap state ev = none ∨
      (state = .candidate ∨ state = .leader) ∧ transitionMap state ev = some (some .follower) := by
  rcases hev with rfl | rfl <;> cases state <;> simp [transitionMap]

/-- A transition to another state, in normal form. -/
theorem raise_eq {ev : Event} {next : StateType} {n : Node}
    (ht : transitionMap n.state ev = some (some next)) :
    ∃ q et bt, Quiet q ∧ raise .plain ev n =
      { n with
        state := next
        pendingCommit := if n.state = .leader then none else n.pendingCommit
        lifecycle := next.lifecycle
        electionTimer := et
        broadcastTimer := bt
        trace := n.trace ++ q } := by
  obtain ⟨q, bt, hq, he⟩ := exitState_eq n.state n
  obtain ⟨q', hq', hl⟩ := handleLifecycle_eq next { n with
    state := next
    pendingCommit := if n.state = .leader then none else n.pendingCommit
    broadcastTimer := bt
    trace := n.trace ++ q }
  rw [raise_some ht, he]
  simp only [entered]
  rw [hl]
  cases next with
  | standby => exact ⟨q ++ q', false, bt, hq.append hq', by simp [entryState, stopElectionTimer]⟩
  | follower => exact ⟨q ++ q', true, bt, hq.append hq', by simp [entryState, startElectionTimer]⟩
  | candidate => exact ⟨q ++ q', n.electionTimer, bt, hq.append hq', by simp [entryState]⟩
  | leader =>
    exact ⟨q ++ q', n.electionTimer, true, hq.append hq', by simp [entryState, startBroadcastTimer]⟩

/-- An event that has a callback and no transition does nothing when it is raised inside a
callback. -/
theorem raise_stay {ev : Event} {n : Node} (ht : transitionMap n.state ev = some none) :
    raise .plain ev n = n := by
  simp only [raise, handleWith, ht, onEvent_raise]

theorem raise_spec {ev : Event} {next : StateType} {n : Node}
    (ht : transitionMap n.state ev = some (some next)) :
    Spec n (raise .plain ev n)
        { n.core with
          state := next
          pending := if n.state = .leader then none else n.pendingCommit } [] ∧
      Other n (raise .plain ev n) := by
  obtain ⟨q, et, bt, hq, he⟩ := raise_eq ht
  rw [he]
  exact ⟨⟨rfl, by simp [visible, hq.visible], fun _ => rfl⟩,
    .of_eq rfl rfl rfl rfl rfl ⟨q, rfl, hq.not_put⟩⟩

/-- A new term or a discovered leader. -/
theorem raise_down {ev : Event} (hev : ev = .newTermReceived ∨ ev = .leaderDiscovered) (n : Node) :
    Spec n (raise .plain ev n) n.core.down [] ∧ Other n (raise .plain ev n) := by
  have hstay : transitionMap n.state ev = none → n.core.down = n.core →
      Spec n (raise .plain ev n) n.core.down [] ∧ Other n (raise .plain ev n) := by
    intro ht hd
    rw [raise_none ht, hd]
    exact ⟨.refl n, .refl n⟩
  have hmove : transitionMap n.state ev = some (some .follower) →
      n.core.down = { n.core with
        state := .follower
        pending := if n.state = .leader then none else n.pendingCommit } →
      Spec n (raise .plain ev n) n.core.down [] ∧ Other n (raise .plain ev n) := by
    intro ht hd
    rw [hd]
    exact raise_spec ht
  cases hs : n.state with
  | standby =>
    exact hstay (by rcases hev with rfl | rfl <;> rw [hs] <;> rfl) (Core.down_standby hs)
  | follower =>
    exact hstay (by rcases hev with rfl | rfl <;> rw [hs] <;> rfl) (Core.down_follower hs)
  | candidate =>
    apply hmove (by rcases hev with rfl | rfl <;> rw [hs] <;> rfl)
    rw [Core.down_candidate hs, hs]
    rfl
  | leader =>
    apply hmove (by rcases hev with rfl | rfl <;> rw [hs] <;> rfl)
    rw [Core.down_leader hs, hs]
    rfl

/-- An election is won. -/
theorem raise_elected (n : Node) :
    Spec n (raise .plain .elected n)
        { n.core with state := if n.state = .candidate then .leader else n.state } [] ∧
      Other n (raise .plain .elected n) := by
  by_cases hs : n.state = .candidate
  · have ht : transitionMap n.state .elected = some (some .leader) := by rw [hs]; rfl
    obtain ⟨h1, h2⟩ := raise_spec ht
    rw [if_pos hs]
    rw [if_neg (by rw [hs]; decide)] at h1
    exact ⟨h1, h2⟩
  · rw [if_neg hs, raise_none (by cases h : n.state <;> simp_all [transitionMap])]
    exact ⟨.refl n, .refl n⟩

end Node

end Foros
