import Foros.Raft.Proof.Reentry

/-!
# User callbacks of a node with peers

In a cluster with peers a call of `commit_command` from a user's callback leaves a commit pending
or is refused, and changes nothing else of the node (`Env.Reentrant.sparing`). So a request is
handled as it is without the calls: the answer, the log, the state, the term and the notices are
the same (`near_onAppendEntriesRequested`). In a cluster of one node the call of a leader goes to
the log at once; there callbacks that make no call are sparing (`Env.plain_sparing`).
-/

namespace Foros

/-- The commit and revert callbacks of the user. -/
def Effect.isNotice : Effect → Bool
  | .committed _ _ => true
  | .reverted _ => true
  | _ => false

namespace Node

/-- The commit and revert callbacks invoked so far. -/
def notices (n : Node) : List Effect := n.trace.filter Effect.isNotice

/-- The same node with the same notices, but for its pending commit and its promises, in a cluster
of `size` nodes. -/
structure Near (size : Nat) (n m : Node) : Prop where
  eq : n = { m with
    pendingCommit := n.pendingCommit
    promises := n.promises
    trace := n.trace }
  notices : n.notices = m.notices
  clusterSize : m.clusterSize = size

namespace Near

variable {size : Nat} {n m k : Node}

theorem refl (hn : n.clusterSize = size) : Near size n n := ⟨rfl, rfl, hn⟩

theorem clusterSize_left (h : Near size n m) : n.clusterSize = size := by
  rw [h.eq]
  exact h.clusterSize

theorem symm (h : Near size n m) : Near size m n := by
  refine ⟨?_, h.notices.symm, h.clusterSize_left⟩
  rw [h.eq]

theorem trans (h : Near size n m) (h' : Near size m k) : Near size n k := by
  refine ⟨?_, h.notices.trans h'.notices, h'.clusterSize⟩
  rw [h.eq, h'.eq]

theorem store (h : Near size n m) : n.store = m.store := by rw [h.eq]

theorem state (h : Near size n m) : n.state = m.state := by rw [h.eq]

/-- An effect that is no notice. -/
theorem quiet {e : Effect} (he : e.isNotice = false) (hn : n.clusterSize = size) :
    Near size (n.emit e) n :=
  ⟨rfl, by simp [Node.notices, Node.emit, he], hn⟩

theorem emit (h : Near size n m) (e : Effect) : Near size (n.emit e) (m.emit e) := by
  refine ⟨?_, ?_, h.clusterSize⟩
  · rw [h.eq]
    rfl
  · have hnotices := h.notices
    simp only [Node.notices, Node.emit, List.filter_append] at hnotices ⊢
    rw [hnotices]

/-- Work on the store. -/
theorem onStore {α : Type} (f : ContextStore → α × ContextStore) (h : Near size n m) :
    Near size (n.onStore f).2 (m.onStore f).2 := by
  have hstore := h.store
  refine ⟨?_, ?_, h.clusterSize⟩
  · simp only [Node.onStore, hstore]
    rw [h.eq]
  · have hnotices := h.notices
    have hputs := filter_puts (f := Effect.isNotice) fun _ _ => rfl
    simp only [Node.notices, Node.onStore, List.filter_append, hputs, List.append_nil] at hnotices ⊢
    exact hnotices

theorem resetVote (env : Env) (h : Near size n m) :
    Near size (resetVote env n) (resetVote env m) := by
  have hfor := h.onStore (·.setVotedFor env.putOk 0)
  refine onStore (·.setVoted env.putOk false) ⟨?_, hfor.notices, hfor.clusterSize⟩
  rw [hfor.eq]

end Near

end Node

/-- User callbacks that leave a node of a cluster of `size` as it is, but for its pending commit and
its promises. Every `Put` succeeds. -/
structure Env.Sparing (size : Nat) (env : Env) : Prop where
  putOk : env.putOk = Env.plain.putOk
  onCommitted : ∀ id command n, n.clusterSize = size →
    Node.Near size (env.onCommitted id command n) n
  onReverted : ∀ id n, n.clusterSize = size → Node.Near size (env.onReverted id n) n
  onResponse : ∀ response n, n.clusterSize = size → Node.Near size (env.onResponse response n) n
  onLifecycle : ∀ state n, n.clusterSize = size → Node.Near size (env.onLifecycle state n) n

theorem Env.plain_sparing (size : Nat) : Env.plain.Sparing size :=
  ⟨rfl, fun _ _ _ h => .refl h, fun _ _ h => .refl h, fun _ _ h => .refl h, fun _ _ h => .refl h⟩

namespace Node

section

variable {size : Nat} {env : Env} (henv : env.Sparing size) {n : Node}
include henv

theorem near_resolve (promise : Nat) (response : CommandCommitResponse)
    (hn : n.clusterSize = size) : Near size (resolve env promise response n) n :=
  .trans (henv.onResponse response (n.emit (.resolved promise response)) hn) (.quiet rfl hn)

/-- A call in a cluster with peers. -/
theorem near_commitCommand (hsize : 1 < size) (command : Option Command)
    (hn : n.clusterSize = size) : Near size (commitCommand env command n) n := by
  have hnew : Near size { n with promises := n.promises + 1 } n := ⟨rfl, rfl, hn⟩
  unfold commitCommand
  simp only
  split
  · exact (near_resolve henv _ _ hnew.clusterSize_left).trans hnew
  rw [if_neg (by omega)]
  unfold setPendingCommit
  simp only [ne_eq, not_true_eq_false, if_false]
  split
  · exact (near_resolve henv _ _ hnew.clusterSize_left).trans hnew
  · exact ⟨rfl, rfl, hn⟩

theorem near_calls (hsize : 1 < size) (hn : n.clusterSize = size) {n' : Node}
    (h : Calls env n n') : Near size n' n := by
  induction h with
  | nothing => exact .refl hn
  | commitCommand command _ ih =>
    exact (near_commitCommand henv hsize command ih.clusterSize_left).trans ih

end

end Node

/-- **Calls leave a node with peers as it is**, but for its pending commit. -/
theorem Env.Reentrant.sparing {env : Env} (h : env.Reentrant)
    (hput : env.putOk = Env.plain.putOk) {size : Nat} (hsize : 1 < size) : env.Sparing size := by
  induction h with
  | @quiet env h1 h2 h3 h4 =>
    refine ⟨hput, fun id command n hn => ?_, fun id n hn => ?_, fun response n hn => ?_,
      fun state n hn => ?_⟩
    · rw [h1]
      exact .refl hn
    · rw [h2]
      exact .refl hn
    · rw [h3]
      exact .refl hn
    · rw [h4]
      exact .refl hn
  | calls _ hp h1 h2 h3 h4 ih =>
    have hinner := ih (hp.trans hput)
    exact ⟨hput, fun id command n hn => Node.near_calls hinner hsize hn (h1 id command n),
      fun id n hn => Node.near_calls hinner hsize hn (h2 id n),
      fun response n hn => Node.near_calls hinner hsize hn (h3 response n),
      fun state n hn => Node.near_calls hinner hsize hn (h4 state n)⟩

namespace Node

/-! ## Stepping down -/

section

variable {size : Nat} {env : Env} (henv : env.Sparing size) {n m : Node}
include henv

/-- What becomes of the pending commit. -/
theorem near_cancelPendingCommit (hn : n.clusterSize = size) :
    Near size (cancelPendingCommit env n) n := by
  unfold cancelPendingCommit
  split
  · exact .refl hn
  · have hclear : Near size { n with pendingCommit := none } n := ⟨rfl, rfl, hn⟩
    exact (near_resolve henv _ _ hclear.clusterSize_left).trans hclear

theorem near_exitState (h : Near size n m) (state : StateType) :
    Near size (exitState env state n) (exitState .plain state m) := by
  unfold exitState
  split
  · have hstop : Near size n.stopBroadcastTimer m.stopBroadcastTimer := by
      refine ⟨?_, h.notices, h.clusterSize⟩
      rw [h.eq]
      rfl
    have hcancel := near_cancelPendingCommit henv hstop.clusterSize_left
    have hplain := near_cancelPendingCommit (Env.plain_sparing size) hstop.clusterSize
    exact (hcancel.trans hstop).trans hplain.symm
  · exact h

theorem near_handleLifecycle (h : Near size n m) (event : LifecycleEvent) :
    Near size (handleLifecycle env event n) (handleLifecycle .plain event m) := by
  unfold handleLifecycle
  rw [show n.lifecycle = m.lifecycle by rw [h.eq]]
  split
  · exact h
  · rename_i next _
    have hset : Near size { n with lifecycle := next } { m with lifecycle := next } := by
      refine ⟨?_, h.notices, h.clusterSize⟩
      rw [h.eq]
    have hnotice := hset.emit (.lifecycle next)
    exact (henv.onLifecycle _ _ hnotice.clusterSize_left).trans hnotice

/-- Follower is entered. -/
theorem near_enter {startElection : Node → Node} (h : Near size n m) (hs : m.state = .follower) :
    Near size (entered env startElection n) (entered .plain startElection m) := by
  have hlife := near_handleLifecycle henv h (lifecycleEvent m.state)
  have hplain : (handleLifecycle .plain (lifecycleEvent m.state) m).state = .follower := by
    rw [(stays_handleLifecycle Env.plain_reentrant.mild (lifecycleEvent m.state) m).state, hs]
  unfold entered
  simp only [h.state, hlife.state, hplain, entryState, startElectionTimer]
  refine ⟨?_, hlife.notices, hlife.clusterSize⟩
  rw [hlife.eq]

/-- A new term or a discovered leader. -/
theorem near_raise {ev : Event} (hev : ev = .newTermReceived ∨ ev = .leaderDiscovered)
    (h : Near size n m) : Near size (raise env ev n) (raise .plain ev m) := by
  rcases transitionMap_down hev m.state with ⟨-, htr⟩ | ⟨-, htr⟩
  · rw [raise_none htr, raise_none (h.state ▸ htr)]
    exact h
  · rw [raise_some htr, raise_some (h.state ▸ htr), h.state]
    have hexit := near_exitState henv h m.state
    refine near_enter henv ⟨?_, hexit.notices, hexit.clusterSize⟩ rfl
    rw [hexit.eq]

theorem near_updateTerm (h : Near size n m) (t : Nat) :
    (updateTerm env t false n).1 = (updateTerm .plain t false m).1 ∧
      Near size (updateTerm env t false n).2 (updateTerm .plain t false m).2 := by
  unfold updateTerm
  rw [h.store]
  split
  · exact ⟨rfl, h⟩
  · refine ⟨rfl, ?_⟩
    simp only [if_true, henv.putOk]
    have hterm := h.onStore (·.setCurrentTerm Env.plain.putOk t)
    have hvote : resetVote env (n.onStore (·.setCurrentTerm Env.plain.putOk t)).2 =
        resetVote .plain (n.onStore (·.setCurrentTerm Env.plain.putOk t)).2 := by
      simp only [resetVote, henv.putOk]
    rw [hvote]
    exact near_raise henv (.inl rfl) (hterm.resetVote .plain)

end

/-! ## The entry of a request -/

/-- A relation between a node and the node without the user's calls, which work on the store and the
notices of the log keep. -/
structure Tracks (env : Env) (R : Node → Node → Prop) : Prop where
  putOk : env.putOk = Env.plain.putOk
  store : ∀ {n m}, R n m → n.store = m.store
  onStore : ∀ {α : Type} (f : ContextStore → α × ContextStore) {n m}, R n m →
    R (n.onStore f).2 (m.onStore f).2
  committed : ∀ log {n m}, R n m →
    R (invokeCommitCallback env log n) (invokeCommitCallback .plain log m)
  reverted : ∀ id {n m}, R n m →
    R (invokeRevertCallback env id n) (invokeRevertCallback .plain id m)

namespace Tracks

variable {env : Env} {R : Node → Node → Prop} (hR : Tracks env R) (request : AppendEntriesRequest)
  {n m : Node}
include hR

theorem pushRequested (h : R n m) :
    (pushRequested env request n).1 = (pushRequested .plain request m).1 ∧
      R (pushRequested env request n).2 (pushRequested .plain request m).2 := by
  let push : ContextStore → Bool × ContextStore := (·.pushLog Env.plain.putOk
    (some ⟨request.leaderCommit, request.term, some request.entries⟩))
  have hpush := hR.onStore push h
  have hsame : (n.onStore push).1 = (m.onStore push).1 := by simp only [Node.onStore, hR.store h]
  unfold Node.pushRequested
  simp only [hR.putOk]
  change (if (n.onStore push).1 = false then _ else _ : Bool × Node).1 =
      (if (m.onStore push).1 = false then _ else _ : Bool × Node).1 ∧
    R (if (n.onStore push).1 = false then _ else _ : Bool × Node).2
      (if (m.onStore push).1 = false then _ else _ : Bool × Node).2
  rw [hsame]
  split
  · exact ⟨rfl, hpush⟩
  · exact ⟨rfl, hR.committed _ hpush⟩

theorem requestLocalCommit (h : R n m) :
    (requestLocalCommit env request n).1 = (requestLocalCommit .plain request m).1 ∧
      R (requestLocalCommit env request n).2 (requestLocalCommit .plain request m).2 := by
  unfold Node.requestLocalCommit
  rw [hR.store h]
  split
  · exact hR.pushRequested request h
  split
  · exact ⟨rfl, h⟩
  split
  · simp only [hR.putOk]
    exact hR.pushRequested request (hR.reverted _ (hR.onStore _ h))
  · exact hR.pushRequested request h

theorem appendRequested (h : R n m) :
    (appendRequested env request n).1 = (appendRequested .plain request m).1 ∧
      R (appendRequested env request n).2 (appendRequested .plain request m).2 := by
  unfold Node.appendRequested
  rw [hR.store h]
  split
  · exact ⟨rfl, h⟩
  split
  · exact hR.requestLocalCommit request h
  split
  · exact ⟨rfl, h⟩
  split
  · unfold requestLocalRollback
    rw [hR.putOk]
    exact ⟨rfl, hR.onStore _ h⟩
  · exact hR.requestLocalCommit request h

end Tracks

/-! ## The handler -/

variable {size : Nat} {env : Env}

theorem near_tracks (henv : env.Sparing size) : Tracks env (Near size) where
  putOk := henv.putOk
  store h := h.store
  onStore f _ _ h := h.onStore f
  committed log n m h := by
    have hnotice := h.emit (.committed log.id log.command)
    exact (henv.onCommitted _ _ _ hnotice.clusterSize_left).trans hnotice
  reverted id n m h := by
    have hnotice := h.emit (.reverted id)
    exact (henv.onReverted _ _ hnotice.clusterSize_left).trans hnotice

/-- **A request is handled as it is without the calls.** -/
theorem near_onAppendEntriesRequested {n : Node} (henv : env.Sparing n.clusterSize)
    (request : AppendEntriesRequest) :
    (onAppendEntriesRequested env request n).1 = (onAppendEntriesRequested .plain request n).1 ∧
      Near n.clusterSize (onAppendEntriesRequested env request n).2
        (onAppendEntriesRequested .plain request n).2 := by
  have hself : Near n.clusterSize n n := .refl rfl
  unfold onAppendEntriesRequested
  split
  · exact ⟨rfl, hself⟩
  simp only
  by_cases ht : request.term < n.store.currentTerm
  · simp only [ht, if_true]
    obtain ⟨h1, h2⟩ := (near_tracks henv).appendRequested request hself
    exact ⟨by rw [h1], h2⟩
  · simp only [ht, if_false]
    obtain ⟨-, hterm⟩ := near_updateTerm henv hself request.term
    have hheard : Near n.clusterSize
        { (updateTerm env request.term false n).2 with broadcastReceived := true }
        { (updateTerm .plain request.term false n).2 with broadcastReceived := true } := by
      refine ⟨?_, hterm.notices, hterm.clusterSize⟩
      rw [hterm.eq]
    have hraise := near_raise henv (.inr rfl) hheard
    obtain ⟨h1, h2⟩ := (near_tracks henv).appendRequested request hraise
    exact ⟨by rw [h1], h2⟩

end Node

end Foros
