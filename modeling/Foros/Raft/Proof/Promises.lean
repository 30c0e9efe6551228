import Foros.Cluster.System
import Foros.Raft.Proof.Service

/-!
# No promise is lost

Every call of `commit_command` makes a promise, and a promise is either fulfilled or held by the
pending commit. `Node.tally p n` counts both: the times the callback has fulfilled `p`, and whether
the pending commit holds it. Every operation keeps all tallies (`Balanced`), with two exceptions
(`Node.Drops`): `get_pending_commit` and `set_pending_commit` forget a pending commit whose id is no
longer the log's size. In a run all promises are kept, in every state, if and only if no callback
goes through either (`promises_kept`).
-/

namespace Foros

/-- The promise an effect fulfils. -/
def Effect.promise : Effect → Option Nat
  | .resolved p _ => some p
  | _ => none

/-- How often effects fulfil the promise `p`. -/
def fulfilled (p : Nat) (es : List Effect) : Nat := es.countP fun e => e.promise = some p

/-- Whether the pending commit holds the promise `p`. -/
def Node.Holds (n : Node) (p : Nat) : Prop := n.pendingCommit.map (·.promise) = some p

/-- Every promise made so far is fulfilled once, or held by the pending commit and not
fulfilled. -/
def Life.PromisesKept (l : Life) : Prop :=
  ∀ p < l.node.promises, fulfilled p l.effects = 1 ∧ ¬ l.node.Holds p ∨
    fulfilled p l.effects = 0 ∧ l.node.Holds p

/-- A callback that looks at a pending commit whose id is no longer the log's size. -/
def Node.Drops (n : Node) : Input → Prop
  | .broadcastTimer => n.broadcastTimer = true ∧ n.state = .leader ∧
    ∃ commit ∈ n.pendingCommit, commit.log.id ≠ n.store.logsSize
  | .commitCommand _ => n.state = .leader ∧ 1 < n.clusterSize ∧
    ∃ commit ∈ n.pendingCommit, commit.log.id ≠ n.store.logsSize
  | _ => False

instance (n : Node) (input : Input) : Decidable (n.Drops input) := by
  refine Input.casesOn input ?_ ?_ ?_ ?_ ?_ ?_ ?_ <;> intros <;> dsimp only [Node.Drops] <;>
    infer_instance

@[simp] theorem fulfilled_nil (p : Nat) : fulfilled p [] = 0 := rfl

@[simp] theorem fulfilled_append (p : Nat) (es es' : List Effect) :
    fulfilled p (es ++ es') = fulfilled p es + fulfilled p es' := List.countP_append

theorem fulfilled_eq_zero {es : List Effect} (h : ∀ e ∈ es, e.promise = none) (p : Nat) :
    fulfilled p es = 0 := by
  apply List.countP_eq_zero.2
  intro e he
  simp [h e he]

theorem fulfilled_resolved (p q : Nat) (response : CommandCommitResponse) :
    fulfilled p [.resolved q response] = if q = p then 1 else 0 := by
  simp [fulfilled, Effect.promise]

namespace Node

/-- `1` if a commit holds the promise `p`. -/
def held (p : Nat) (commit : Option PendingCommit) : Nat :=
  if commit.map (·.promise) = some p then 1 else 0

@[simp] theorem held_none (p : Nat) : held p none = 0 := rfl

@[simp] theorem held_some (p : Nat) (commit : PendingCommit) :
    held p (some commit) = if commit.promise = p then 1 else 0 := by
  simp [held]

/-- What the callback so far has done with the promise `p`. -/
def tally (p : Nat) (n : Node) : Nat := fulfilled p n.trace + held p n.pendingCommit

/-- No promise is made, and every promise is as fulfilled or held as before. -/
structure Balanced (n n' : Node) : Prop where
  promises : n'.promises = n.promises
  tally : ∀ p, n'.tally p = n.tally p

namespace Balanced

variable {n n' n'' : Node}

theorem refl (n : Node) : Balanced n n := ⟨rfl, fun _ => rfl⟩

theorem trans (h : Balanced n n') (h' : Balanced n' n'') : Balanced n n'' :=
  ⟨h'.promises.trans h.promises, fun p => (h'.tally p).trans (h.tally p)⟩

/-- A move away from the promises. -/
theorem of_eq (hn : n'.promises = n.promises) (hp : n'.pendingCommit = n.pendingCommit)
    (ht : ∃ es, n'.trace = n.trace ++ es ∧ ∀ e ∈ es, e.promise = none) : Balanced n n' := by
  obtain ⟨es, he, hes⟩ := ht
  refine ⟨hn, fun p => ?_⟩
  unfold Node.tally
  rw [he, hp, fulfilled_append, fulfilled_eq_zero hes, Nat.add_zero]

/-- Fields outside the trace are set. -/
theorem set (hn : n'.promises = n.promises) (hp : n'.pendingCommit = n.pendingCommit)
    (ht : n'.trace = n.trace) : Balanced n n' :=
  of_eq hn hp ⟨[], by rw [ht, List.append_nil], by simp⟩

/-- A move from a node that differs outside the trace. -/
theorem of_set (h : Balanced n' n'') (hn : n'.promises = n.promises)
    (hp : n'.pendingCommit = n.pendingCommit) (ht : n'.trace = n.trace) : Balanced n n'' :=
  (set hn hp ht).trans h

theorem emit {e : Effect} (he : e.promise = none) (n : Node) : Balanced n (n.emit e) :=
  of_eq rfl rfl ⟨[e], rfl, by simpa using he⟩

theorem onStore {α : Type} (f : ContextStore → α × ContextStore) (n : Node) :
    Balanced n (n.onStore f).2 := by
  refine of_eq rfl rfl ⟨_, rfl, fun e he => ?_⟩
  obtain ⟨p, -, rfl⟩ := List.mem_map.1 he
  rfl

/-- The promise of the pending commit is fulfilled. -/
theorem resolve {commit : PendingCommit} (hp : n.pendingCommit = some commit)
    (h : Balanced { n with pendingCommit := none } n') (hn' : n'.pendingCommit = none)
    (response : CommandCommitResponse) :
    Balanced n (n'.emit (.resolved commit.promise response)) := by
  refine ⟨h.promises, fun p => ?_⟩
  have ht := h.tally p
  unfold Node.tally at ht ⊢
  simp only [hn', held_none, Nat.add_zero] at ht
  simp only [Node.emit, hn', hp, ht, fulfilled_append, fulfilled_resolved, held_none, held_some,
    Nat.add_zero]

/-- The pending commit is completed. -/
theorem complete {commit : PendingCommit} (hp : n.pendingCommit = some commit) (log : LogEntry) :
    Balanced n
      (completeCommit .plain commit.promise log true { n with pendingCommit := none }) := by
  have hpush := (Balanced.onStore (·.pushLog Env.plain.putOk (some log))
    { n with pendingCommit := none }).trans (.emit (e := .committed log.id log.command) rfl _)
  exact resolve hp hpush rfl _

theorem cancelPendingCommit (n : Node) : Balanced n (cancelPendingCommit .plain n) := by
  unfold Node.cancelPendingCommit
  cases hp : n.pendingCommit with
  | none => exact .refl n
  | some commit => exact resolve hp (.refl _) rfl _

/-! ## The state machines -/

theorem exitState (st : StateType) (n : Node) : Balanced n (exitState .plain st n) := by
  cases st with
  | leader => exact (Balanced.cancelPendingCommit n.stopBroadcastTimer).of_set rfl rfl rfl
  | _ => exact .refl n

theorem handleLifecycle (ev : LifecycleEvent) (n : Node) :
    Balanced n (handleLifecycle .plain ev n) := by
  unfold Node.handleLifecycle
  split
  · exact .refl n
  · rename_i next _
    exact (Balanced.emit (e := .lifecycle next) rfl _).of_set rfl rfl rfl

theorem entryState {startElection : Node → Node} (hs : ∀ n, Balanced n (startElection n))
    (st : StateType) (n : Node) : Balanced n (entryState startElection st n) := by
  cases st with
  | candidate => exact hs n
  | _ => exact .set rfl rfl rfl

theorem handleWith {startElection broadcast : Node → Node}
    (hs : ∀ n, Balanced n (startElection n)) {ev : Event} {n : Node}
    (hon : Balanced n (onEvent startElection broadcast n.state ev n)) :
    Balanced n (handleWith .plain startElection broadcast ev n) := by
  unfold Node.handleWith
  split
  · exact .refl n
  simp only
  split
  · exact hon
  · apply (hon.trans (.exitState (onEvent startElection broadcast n.state ev n).state _)).trans
    exact ((Balanced.handleLifecycle _ _).trans (.entryState hs _ _)).of_set rfl rfl rfl

theorem raise (ev : Event) (n : Node) : Balanced n (raise .plain ev n) := by
  apply handleWith .refl
  unfold onEvent
  split <;> exact .refl n

/-! ## Terms and elections -/

theorem resetVote (n : Node) : Balanced n (resetVote .plain n) := by
  have h := Balanced.onStore (·.setVotedFor Env.plain.putOk 0) n
  exact h.trans ((Balanced.onStore _ _).of_set rfl rfl rfl)

theorem updateTerm (t : Nat) (self : Bool) (n : Node) :
    Balanced n (updateTerm .plain t self n).2 := by
  unfold Node.updateTerm
  split
  · exact .refl n
  · have h := (Balanced.onStore (·.setCurrentTerm Env.plain.putOk t) n).trans (.resetVote _)
    simp only
    split
    · exact h.trans (.raise _ _)
    · exact h

theorem checkElected (n : Node) : Balanced n (checkElected .plain n) := by
  unfold Node.checkElected
  split
  · exact .refl n
  · exact (Balanced.raise .elected _).of_set rfl rfl rfl

theorem requestVote (n : Node) : Balanced n (requestVote .plain n) := by
  unfold Node.requestVote
  rw [foldl_requestVote]
  have hsend : Balanced n { n with
      trace := n.trace ++ n.otherNodes.map fun node =>
        .sendRequestVote node.nodeId n.voteRequest } := by
    refine .of_eq rfl rfl ⟨_, rfl, fun e he => ?_⟩
    obtain ⟨node, -, rfl⟩ := List.mem_map.1 he
    rfl
  exact hsend.trans (.checkElected _)

theorem voteForMe (n : Node) : Balanced n (voteForMe .plain n) := by
  have h := Balanced.onStore (·.setVotedFor Env.plain.putOk n.nodeId) n
  exact (h.trans (.onStore _ _)).trans (.set rfl rfl rfl)

theorem startElection (n : Node) : Balanced n (startElection .plain n) := by
  have h := Balanced.updateTerm ((n.store.currentTerm + 1) % 2 ^ 64) true n
  have h' := (h.trans (.resetVote _)).trans (.voteForMe _)
  exact h'.trans ((Balanced.requestVote _).of_set rfl rfl rfl)

theorem onElectionTimer (n : Node) : Balanced n (onElectionTimer .plain n) := by
  unfold Node.onElectionTimer
  split
  · exact .set rfl rfl rfl
  · apply handleWith .startElection
    unfold onEvent
    cases n.state with
    | candidate => exact .startElection n
    | _ => exact .refl n

theorem onRequestVoteResponse (response : RequestVoteResponse) (n : Node) :
    Balanced n (onRequestVoteResponse .plain response n) := by
  unfold Node.onRequestVoteResponse
  split
  · exact .refl n
  have h := Balanced.updateTerm response.term false n
  simp only
  split
  · exact h
  split
  · exact h
  · exact h.trans ((Balanced.checkElected _).of_set rfl rfl rfl)

theorem vote (term id lastIndex lastTerm : Nat) (n : Node) :
    Balanced n (vote .plain term id lastIndex lastTerm n).2 := by
  unfold Node.vote
  simp only
  split
  · exact (Balanced.onStore _ n).trans (.onStore _ _)
  · exact .refl n

theorem onRequestVoteRequested (request : RequestVoteRequest) (n : Node) :
    Balanced n (onRequestVoteRequested .plain request n).2 := by
  unfold Node.onRequestVoteRequested
  split
  · exact .refl n
  · exact (Balanced.updateTerm _ _ n).trans (.vote _ _ _ _ _)

/-! ## Replication -/

theorem handlePendingCommitResponse (id commitIndex term : Nat) (success : Bool) (n : Node) :
    Balanced n (handlePendingCommitResponse .plain id commitIndex term success n) := by
  unfold Node.handlePendingCommitResponse
  cases hp : n.pendingCommit with
  | none => exact .refl n
  | some commit =>
    simp only
    split
    · exact .refl n
    split
    · refine ⟨rfl, fun p => ?_⟩
      simp only [Node.tally, hp, held_some]
    · exact .complete hp _

theorem onAppendEntriesResponse (id : Nat) (request : AppendEntriesRequest)
    (response : AppendEntriesResponse) (n : Node) :
    Balanced n (onAppendEntriesResponse .plain id request response n) := by
  unfold Node.onAppendEntriesResponse onBroadcastResponse
  simp only
  split
  · exact ((Balanced.updateTerm _ _ _).trans
      (.handlePendingCommitResponse _ _ _ _ _)).of_set rfl rfl rfl
  · exact (Balanced.handlePendingCommitResponse _ _ _ _ _).of_set rfl rfl rfl

theorem pushRequested (request : AppendEntriesRequest) (n : Node) :
    Balanced n (pushRequested .plain request n).2 := by
  unfold Node.pushRequested
  simp only
  split
  · exact .onStore _ n
  · exact (Balanced.onStore _ n).trans (.emit rfl _)

theorem requestLocalCommit (request : AppendEntriesRequest) (n : Node) :
    Balanced n (requestLocalCommit .plain request n).2 := by
  unfold Node.requestLocalCommit
  split
  · exact .pushRequested request n
  split
  · exact .refl n
  split
  · exact ((Balanced.onStore _ n).trans (.emit rfl _)).trans (.pushRequested request _)
  · exact .pushRequested request n

theorem appendRequested (request : AppendEntriesRequest) (n : Node) :
    Balanced n (appendRequested .plain request n).2 := by
  unfold Node.appendRequested
  split
  · exact .refl n
  split
  · exact .requestLocalCommit request n
  split
  · exact .refl n
  split
  · exact .onStore _ n
  · exact .requestLocalCommit request n

theorem onAppendEntriesRequested (request : AppendEntriesRequest) (n : Node) :
    Balanced n (onAppendEntriesRequested .plain request n).2 := by
  unfold Node.onAppendEntriesRequested
  split
  · exact .refl n
  simp only
  split
  · exact .appendRequested request n
  · refine Balanced.trans ?_ (.appendRequested request _)
    have h := Balanced.updateTerm request.term false n
    exact h.trans ((Balanced.raise .leaderDiscovered _).of_set rfl rfl rfl)

end Balanced

/-! ## The exceptions -/

/-- A broadcast keeps the tallies unless it forgets the pending commit. -/
theorem tally_broadcast {n : Node} (hid : n.LastId) (p : Nat) :
    n.broadcast.promises = n.promises ∧ n.broadcast.tally p =
      fulfilled p n.trace + held p n.core.current := by
  rw [broadcast_eq hid]
  refine ⟨rfl, ?_⟩
  have hsend : ∀ e ∈ n.core.appendRequests, e.promise = none := by
    intro e he
    obtain ⟨node, -, rfl⟩ := List.mem_map.1 he
    rfl
  change fulfilled p (n.trace ++ n.core.appendRequests) + _ = _
  rw [fulfilled_append, fulfilled_eq_zero hsend]
  rfl

theorem tally_emit_resolved (p q : Nat) (response : CommandCommitResponse) (n : Node) :
    (n.emit (.resolved q response)).tally p = n.tally p + if q = p then 1 else 0 := by
  unfold tally emit
  simp only [fulfilled_append, fulfilled_resolved]
  omega

/-- The pending commit as `commit_command` leaves it, when it does not replace it. -/
def keptCommit (n : Node) : Option PendingCommit :=
  if n.state = .leader ∧ 1 < n.clusterSize then n.core.current else n.pendingCommit

/-- A call of `commit_command` makes the next promise, and keeps the others unless it forgets the
pending commit. -/
theorem tally_commitCommand (command : Option Command) (n : Node) (p : Nat) :
    (commitCommand .plain command n).promises = n.promises + 1 ∧
    (commitCommand .plain command n).tally p =
      fulfilled p n.trace + held p n.keptCommit + if n.promises = p then 1 else 0 := by
  unfold commitCommand
  by_cases hl : n.state = .leader
  · have hlead : ({ n with promises := n.promises + 1 } : Node).isLeader = true := by
      simp [isLeader, hl]
    simp only [hlead, Bool.true_eq_false, if_false]
    by_cases hsize : n.clusterSize ≤ 1
    · have hkept : n.keptCommit = n.pendingCommit :=
        if_neg fun h => absurd h.2 (Nat.not_lt.2 hsize)
      rw [if_pos hsize, hkept]
      refine ⟨rfl, ?_⟩
      have hpush := (Balanced.onStore (·.pushLog Env.plain.putOk (some ⟨n.store.logsSize,
          n.store.currentTerm, command⟩)) { n with promises := n.promises + 1 }).trans
        (.emit (e := .committed n.store.logsSize command) rfl _)
      apply (tally_emit_resolved p n.promises _ _).trans
      congr 1
      exact hpush.tally p
    · have hkept : n.keptCommit = n.core.current := if_pos ⟨hl, Nat.lt_of_not_le hsize⟩
      have hany : ({ n with promises := n.promises + 1 } : Node).pendingCommit.any
          (·.log.id = ({ n with promises := n.promises + 1 } : Node).store.logsSize) =
          n.core.current.isSome := n.any_pendingCommit
      rw [if_neg hsize, hkept]
      unfold setPendingCommit
      simp only [ne_eq, not_true_eq_false, if_false, hany]
      cases hc : n.core.current with
      | some commit =>
        have hp : n.pendingCommit = some commit := (Core.current_eq_some.1 hc).1
        simp only [Option.isSome_some, if_true]
        refine ⟨rfl, (tally_emit_resolved p n.promises _ _).trans ?_⟩
        simp only [tally, hp]
      | none =>
        simp only [Option.isSome_none, Bool.false_eq_true, if_false, Bool.true_eq_false]
        refine ⟨trivial, ?_⟩
        simp only [tally, held_some, held_none, Nat.add_zero]
  · have hlead : ({ n with promises := n.promises + 1 } : Node).isLeader = false := by
      simp [isLeader, hl]
    have hkept : n.keptCommit = n.pendingCommit := if_neg fun h => hl h.1
    rw [if_pos hlead, hkept]
    exact ⟨rfl, tally_emit_resolved p n.promises _ _⟩

end Node

/-! ## Runs -/

/-- The promises a callback makes. -/
def Input.promises : Input → Nat
  | .commitCommand _ => 1
  | _ => 0

namespace Node

/-- A pending commit that is no longer current is at another place than the log's end. -/
theorem current_eq_of_not {n : Node}
    (h : ¬ ∃ commit ∈ n.pendingCommit, commit.log.id ≠ n.store.logsSize) :
    n.core.current = n.pendingCommit := by
  cases hp : n.pendingCommit with
  | none => exact Core.current_of_none hp
  | some commit =>
    apply Core.current_of_eq hp
    by_contra hid
    exact h ⟨commit, hp, hid⟩

theorem current_eq_none {n : Node}
    (h : ∃ commit ∈ n.pendingCommit, commit.log.id ≠ n.store.logsSize) :
    n.core.current = none := by
  obtain ⟨commit, hp, hid⟩ := h
  exact Core.current_of_ne hp hid

/-- The pending commit as a callback finds it, unless it forgets it. -/
def remaining (n : Node) (input : Input) : Option PendingCommit :=
  if n.Drops input then none else n.pendingCommit

theorem remaining_broadcastTimer {n : Node} (ht : n.broadcastTimer = true)
    (hs : n.state = .leader) : n.remaining .broadcastTimer = n.core.current := by
  by_cases hd : ∃ commit ∈ n.pendingCommit, commit.log.id ≠ n.store.logsSize
  · rw [current_eq_none hd]
    exact if_pos ⟨ht, hs, hd⟩
  · rw [current_eq_of_not hd]
    exact if_neg fun h => hd h.2.2

theorem remaining_commitCommand (n : Node) (command : Option Command) :
    n.remaining (.commitCommand command) = n.keptCommit := by
  unfold keptCommit
  by_cases hl : n.state = .leader ∧ 1 < n.clusterSize
  · rw [if_pos hl]
    by_cases hd : ∃ commit ∈ n.pendingCommit, commit.log.id ≠ n.store.logsSize
    · rw [current_eq_none hd]
      exact if_pos ⟨hl.1, hl.2, hd⟩
    · rw [current_eq_of_not hd]
      exact if_neg fun h => hd h.2.2
  · rw [if_neg hl]
    exact if_neg fun h => hl ⟨h.1, h.2.1⟩

/-- **What a callback does with the promises.** -/
theorem tally_run {n : Node} (hid : n.LastId) (input : Input) (p : Nat) :
    (run .plain input n).promises = n.promises + input.promises ∧
    (run .plain input n).tally p = held p (n.remaining input) +
      if n.promises ≤ p ∧ p < n.promises + input.promises then 1 else 0 := by
  let m : Node := { n with trace := [] }
  -- the callbacks that make no promise
  have hnone : ∀ n' : Node, n'.promises = n.promises → n'.tally p = held p (n.remaining input) →
      input.promises = 0 → n'.promises = n.promises + input.promises ∧
        n'.tally p = held p (n.remaining input) +
          if n.promises ≤ p ∧ p < n.promises + input.promises then 1 else 0 := by
    intro n' hn ht h0
    rw [hn, ht, h0, if_neg (by omega)]
    exact ⟨rfl, rfl⟩
  have hbal : ∀ n' : Node, Balanced m n' → ¬ n.Drops input → input.promises = 0 →
      n'.promises = n.promises + input.promises ∧
        n'.tally p = held p (n.remaining input) +
          if n.promises ≤ p ∧ p < n.promises + input.promises then 1 else 0 := by
    intro n' hb hd
    apply hnone n' hb.promises
    rw [hb.tally p, show n.remaining input = n.pendingCommit from if_neg hd]
    exact Nat.zero_add _
  unfold run dispatch
  cases input with
  | electionTimer =>
    refine hbal _ ?_ id rfl
    simp only
    split
    · exact .onElectionTimer m
    · exact .refl m
  | broadcastTimer =>
    by_cases ht : n.broadcastTimer = true ∧ n.state = .leader
    · have he : handle .plain .broadcastTimedout m = m.broadcast := by
        simp only [handle, handleWith, onEvent, show m.state = .leader from ht.2, transitionMap]
      obtain ⟨h1, h2⟩ := tally_broadcast (n := m) hid p
      simp only
      rw [if_pos ht.1, he]
      refine hnone _ h1 ?_ rfl
      rw [h2, remaining_broadcastTimer ht.1 ht.2]
      exact Nat.zero_add _
    · refine hbal _ ?_ (fun h => ht ⟨h.1, h.2.1⟩) rfl
      simp only
      split
      · rename_i hb
        have hs : m.state ≠ .leader := fun hs => ht ⟨hb, hs⟩
        have htr : transitionMap m.state .broadcastTimedout = none := by
          cases h : m.state <;> simp_all [transitionMap]
        have he : handle .plain .broadcastTimedout m = m := by simp only [handle, handleWith, htr]
        rw [he]
        exact .refl m
      · exact .refl m
  | commitCommand command =>
    obtain ⟨h1, h2⟩ := tally_commitCommand command m p
    refine ⟨h1, h2.trans ?_⟩
    have hnew : n.promises = p ↔ n.promises ≤ p ∧ p < n.promises + 1 := by omega
    rw [remaining_commitCommand]
    change 0 + held p n.keptCommit + (if n.promises = p then 1 else 0) = _
    rw [Nat.zero_add]
    congr 1
    exact if_congr hnew rfl rfl
  | appendEntries request =>
    exact hbal _ ((Balanced.onAppendEntriesRequested request m).trans (.emit rfl _)) id rfl
  | requestVote request =>
    exact hbal _ ((Balanced.onRequestVoteRequested request m).trans (.emit rfl _)) id rfl
  | appendEntriesResponse id request response =>
    exact hbal _ (.onAppendEntriesResponse id request response m) (fun h => h) rfl
  | requestVoteResponse response => exact hbal _ (.onRequestVoteResponse response m) id rfl

end Node

/-- A node that has just started has made no promise. -/
theorem Node.create_tally (ids : List Nat) (me : Nat) (db : LevelDB) (p : Nat) :
    (create .plain ids me db).promises = 0 ∧ (create .plain ids me db).tally p = 0 := by
  have hstart : ∀ n : Node, Balanced n (handle .plain .started n) := by
    intro n
    refine .handleWith .startElection ?_
    unfold onEvent
    split <;> first | exact .refl n | (rename_i h; cases h)
  unfold create
  refine ⟨(hstart _).promises, ((hstart _).tally p).trans ?_⟩
  refine fulfilled_eq_zero (fun e he => ?_) p
  obtain ⟨q, -, rfl⟩ := List.mem_map.1 he
  rfl

/-- Every promise is accounted for: the ones made are fulfilled or held, the others neither. -/
def Life.Accounts (l : Life) : Prop :=
  ∀ p, fulfilled p l.effects + Node.held p l.node.pendingCommit =
    if p < l.node.promises then 1 else 0

/-- A promise that is not made yet is nowhere. -/
def Life.Unmade (l : Life) : Prop :=
  ∀ p, l.node.promises ≤ p → fulfilled p l.effects = 0 ∧ Node.held p l.node.pendingCommit = 0

theorem Life.promisesKept_iff {l : Life} (h : l.Unmade) : l.PromisesKept ↔ l.Accounts := by
  have hp : ∀ p, (fulfilled p l.effects = 1 ∧ ¬ l.node.Holds p ∨
      fulfilled p l.effects = 0 ∧ l.node.Holds p) ↔
      fulfilled p l.effects + Node.held p l.node.pendingCommit = 1 := by
    intro p
    unfold Node.Holds Node.held
    split <;> simp_all
  constructor
  · intro hk p
    by_cases hlt : p < l.node.promises
    · rw [if_pos hlt]
      exact (hp p).1 (hk p hlt)
    · obtain ⟨h1, h2⟩ := h p (Nat.le_of_not_lt hlt)
      rw [if_neg hlt, h1, h2]
  · intro ha p hlt
    have := ha p
    rw [if_pos hlt] at this
    exact (hp p).2 this

theorem Node.held_remaining_le (n : Node) (input : Input) (p : Nat) :
    held p (n.remaining input) ≤ held p n.pendingCommit := by
  unfold remaining
  split
  · exact Nat.zero_le _
  · exact Nat.le_refl _

section

variable {l l' : Life} {input : Input} (hid : l.node.LastId)
  (hl' : l' = ⟨l.node.run .plain input, l.effects ++ (l.node.run .plain input).trace⟩)
include hid hl'

/-- The books after a callback. -/
theorem Life.fulfilled_step (p : Nat) :
    l'.node.promises = l.node.promises + input.promises ∧
    fulfilled p l'.effects + Node.held p l'.node.pendingCommit =
      fulfilled p l.effects + Node.held p (l.node.remaining input) +
        if l.node.promises ≤ p ∧ p < l.node.promises + input.promises then 1 else 0 := by
  obtain ⟨h1, h2⟩ := Node.tally_run hid input p
  rw [hl']
  refine ⟨h1, ?_⟩
  unfold Node.tally at h2
  simp only
  rw [fulfilled_append]
  omega

theorem Life.Unmade.step (h : l.Unmade) : l'.Unmade := by
  intro p hp
  obtain ⟨h1, h2⟩ := Life.fulfilled_step hid hl' p
  rw [h1] at hp
  obtain ⟨h3, h4⟩ := h p (by omega)
  have hle := l.node.held_remaining_le input p
  rw [if_neg (by omega)] at h2
  omega

/-- **A callback keeps all promises** unless it forgets the pending commit. -/
theorem Life.accounts_step (hu : l.Unmade) (h : l.Accounts) :
    l'.Accounts ↔ ¬ l.node.Drops input := by
  constructor
  · intro h' hd
    obtain ⟨commit, hp⟩ : ∃ commit, l.node.pendingCommit = some commit := by
      unfold Node.Drops at hd
      split at hd
      · exact ⟨_, hd.2.2.choose_spec.1⟩
      · exact ⟨_, hd.2.2.choose_spec.1⟩
      · exact absurd hd id
    -- the promise the commit held is now neither held nor fulfilled
    have hrem : l.node.remaining input = none := if_pos hd
    have hheld : Node.held commit.promise l.node.pendingCommit = 1 := by simp [hp]
    have hlt : commit.promise < l.node.promises := by
      by_contra hge
      have := (hu commit.promise (by omega)).2
      omega
    obtain ⟨h1, h2⟩ := Life.fulfilled_step hid hl' commit.promise
    have hbefore := h commit.promise
    have hafter := h' commit.promise
    rw [if_pos hlt] at hbefore
    rw [if_pos (by omega)] at hafter
    rw [hrem, Node.held_none, if_neg (by omega)] at h2
    omega
  · intro hd p
    obtain ⟨h1, h2⟩ := Life.fulfilled_step hid hl' p
    have hrem : l.node.remaining input = l.node.pendingCommit := if_neg hd
    have hbefore := h p
    rw [hrem, hbefore] at h2
    rw [h2, h1]
    split <;> split <;> split <;> omega

end

/-- **No promise is lost** in a run, in any of its states, if and only if no callback of it forgets
the pending commit. -/
theorem promises_kept {ids : List Nat} {me : Nat} {db : LevelDB} {h : List Life}
    (hr : ServiceRun ids me db (fun _ input => input.HasCommand) h) :
    (∀ l ∈ h, l.PromisesKept) ↔
      ServiceRun ids me db (fun l input => input.HasCommand ∧ ¬ l.node.Drops input) h := by
  have hsound := ServiceRun.sound hr
  have hlast : ∀ l ∈ h, l.node.LastId := fun l hl log hlog => (hsound l hl).indexed.getLast hlog
  have hinit : ∀ p, (Life.service ids me db).init.node.promises = 0 ∧
      fulfilled p (Life.service ids me db).init.effects +
        Node.held p (Life.service ids me db).init.node.pendingCommit = 0 :=
    Node.create_tally ids me db
  have hunmade : ∀ l ∈ h, l.Unmade := by
    refine (hr.guard hlast).forall_mem (fun p _ => ?_) fun l input l' hu hok hs => ?_
    · have := (hinit p).2
      omega
    · exact hu.step hok.2.1 (Life.service_step hs)
  have hiff : (∀ l ∈ h, l.PromisesKept) ↔ ∀ l ∈ h, l.Accounts :=
    forall₂_congr fun l hl => Life.promisesKept_iff (hunmade l hl)
  rw [hiff]
  refine hr.forall_mem_iff (fun p => ?_) fun l input l' hl hin hs ha => ?_
  · rw [(hinit p).1, (hinit p).2]
    rfl
  · exact Life.accounts_step (hlast l hl) (Life.service_step hs) (hunmade l hl) ha

/-- Node 0 refuses a command as a follower, is elected, refuses a second command while one is
pending, completes the first, and steps down with a third one pending. -/
theorem promises_kept_step_down :
    ∃ h, ServiceRun [0, 1] 0 .empty (fun l input => input.HasCommand ∧ ¬ l.node.Drops input) h ∧
      (∃ l ∈ h, l.node.promises = 4 ∧ l.node.state = .follower) ∧ ∀ l ∈ h, l.PromisesKept := by
  obtain ⟨h, hr, hc⟩ := Lib.System.exists_run (S := Life.service [0, 1] 0 .empty)
    (fun l input => input.HasCommand ∧ ¬ l.node.Drops input)
    [.commitCommand (some [1]), .electionTimer, .requestVoteResponse ⟨1, true⟩,
      .commitCommand (some [2]), .commitCommand (some [3]), .broadcastTimer,
      .appendEntriesResponse 1 ⟨1, 0, 0, 0, [2], 0⟩ ⟨1, true⟩, .commitCommand (some [4]),
      .requestVote ⟨2, 1, 1, 1⟩]
    (fun h => h.any fun l => l.node.promises = 4 && l.node.state = .follower)
    (by decide +kernel)
  simp only [List.any_eq_true, Bool.and_eq_true, decide_eq_true_eq] at hc
  exact ⟨h, hr, hc, (promises_kept (hr.mono fun _ _ hok => hok.1)).2 hr⟩

/-- Node 0 is elected over node 1 and has a commit pending when an entry that node 1 sent before
arrives. The entry is appended, and the next broadcast forgets the commit. -/
theorem promises_not_kept :
    (∃ h, ServiceRun [0, 1, 2] 0 .empty (fun _ input => input.HasCommand) h ∧
      ¬ ∀ l ∈ h, l.PromisesKept) ∧
    ∃ s h, ClusterRun (.range 3 (by decide)) (fun _ a => ∀ i, a ≠ .restart i) (s :: h) ∧
      (s.nodes 0).promises = 1 ∧ (s.nodes 0).pendingCommit.isNone ∧
      ∀ s' ∈ s :: h, fulfilled 0 (s'.nodes 0).trace = 0 := by
  constructor
  · obtain ⟨h, hr, hc⟩ := Lib.System.exists_run (S := Life.service [0, 1, 2] 0 .empty)
      (fun _ input => input.HasCommand)
      [.requestVote ⟨1, 1, 0, 0⟩, .appendEntries ⟨1, 1, 0, 0, [], 0⟩, .electionTimer,
        .electionTimer, .requestVoteResponse ⟨2, true⟩, .commitCommand (some [2]),
        .appendEntries ⟨1, 1, 0, 0, [1], 0⟩, .broadcastTimer]
      (fun h => h.any fun l => l.node.promises = 1 && l.node.pendingCommit.isNone &&
        fulfilled 0 l.effects = 0)
      (by decide +kernel)
    simp only [List.any_eq_true, Bool.and_eq_true, decide_eq_true_eq,
      Option.isNone_iff_eq_none] at hc
    obtain ⟨l, hl, ⟨hn, hp⟩, hf⟩ := hc
    refine ⟨h, hr, fun hk => ?_⟩
    rcases hk l hl 0 (by omega) with ⟨h1, -⟩ | ⟨-, h2⟩
    · omega
    · rw [Node.Holds, hp] at h2
      cases h2
  · have hok : ∀ (_ : Cluster) (a : Action), (match a with | .restart _ => false | _ => true) =
        true → ∀ i, a ≠ .restart i := by
      rintro _ _ h i rfl
      cases h
    obtain ⟨h, hr, hc⟩ := Lib.System.exists_run_of_mem
      (S := Cluster.system (.range 3 (by decide)))
      (fun _ a => match a with | .restart _ => false | _ => true)
      [.electionTimer 1, .deliver 0, .deliver 1, .broadcastTimer 1, .deliver 1, .deliver 2,
        .commitCommand 1 [1], .broadcastTimer 1, .electionTimer 0, .electionTimer 0, .deliver 5,
        .deliver 5, .commitCommand 0 [2], .deliver 2, .broadcastTimer 0]
      (fun
        | s :: h => (s.nodes 0).promises = 1 && (s.nodes 0).pendingCommit.isNone &&
          (s :: h).all fun s' => fulfilled 0 (s'.nodes 0).trace = 0
        | [] => false)
      (by decide +kernel) (fun a _ s => hok s a)
    split at hc
    · rename_i s h
      simp only [Bool.and_eq_true, List.all_eq_true, decide_eq_true_eq] at hc
      exact ⟨s, h, hr, hc.1.1, hc.1.2, hc.2⟩
    · cases hc

end Foros
