import Foros.Raft.Proof.Growth
import Foros.Raft.Proof.Sparing

/-!
# Users that call back

`Env.User`: the user's callbacks call `commit_command` with commands, and the callbacks of these
calls are again such callbacks. In a callback of the node, the calls of a follower are refused, and
those of a leader come when the node has done its own work, with one exception, the calls while
`Leader::exit` fulfils the pending promise, which `Env.Patient` excludes. So what the node has done
when its callback returns is what it does without the calls, followed by the calls (`run_served`):
it sends the same messages, and the same commits have succeeded with the answers of peers.
-/

namespace Foros

/-- What a user's callback makes of a node: calls of `commit_command` with commands, one after the
other, whose own callbacks are those of `env`. -/
inductive Node.Asks (env : Env) (n : Node) : Node → Prop
  | nothing : Asks env n n
  | commitCommand {n' : Node} (command : Command) :
      Asks env n n' → Asks env n (commitCommand env (some command) n')

/-- User callbacks that do nothing, or call `commit_command` with commands, where the callbacks of
a call are again such callbacks. Every `Put` succeeds. -/
inductive Env.User : Env → Prop
  | plain : User .plain
  | calls {env inner : Env} : User inner → env.putOk = Env.plain.putOk →
      (∀ id command n, Node.Asks inner n (env.onCommitted id command n)) →
      (∀ id n, Node.Asks inner n (env.onReverted id n)) →
      (∀ response n, Node.Asks inner n (env.onResponse response n)) →
      (∀ state n, Node.Asks inner n (env.onLifecycle state n)) → User env

/-- The effects that do not depend on the calls: messages, and the success of a commit that waits
for peers. -/
def Effect.firm (size : Nat) : Effect → Bool
  | .sendAppendEntries _ _ => true
  | .sendRequestVote _ _ => true
  | .replyAppendEntries _ _ => true
  | .replyRequestVote _ _ => true
  | .resolved _ response => response.result && decide (1 < size)
  | _ => false

namespace Node

def firm (n : Node) : List Effect := n.trace.filter (Effect.firm n.clusterSize)

/-- The calls of `commit_command` with the commands `cs`. -/
def asked (cs : List Command) (n : Node) : Node :=
  cs.foldl (fun m command => commitCommand .plain (some command) m) n

theorem asked_append (cs ds : List Command) (n : Node) :
    n.asked (cs ++ ds) = (n.asked cs).asked ds := List.foldl_append ..

/-! ## Nodes that differ in their effects -/

/-- The same node, but for effects that are not firm. -/
structure Like (n m : Node) : Prop where
  eq : n = { m with trace := n.trace }
  firm : n.firm = m.firm

namespace Like

variable {n m k : Node}

theorem refl (n : Node) : Like n n := ⟨rfl, rfl⟩

theorem trans (h : Like n m) (h' : Like m k) : Like n k := by
  refine ⟨?_, h.firm.trans h'.firm⟩
  rw [h.eq, h'.eq]

theorem symm (h : Like n m) : Like m n := by
  refine ⟨?_, h.firm.symm⟩
  rw [h.eq]

/-- Effects that are not firm. -/
theorem quiet {es : List Effect} (he : es.filter (Effect.firm n.clusterSize) = []) :
    Like { n with trace := n.trace ++ es } n :=
  ⟨rfl, by simp [Node.firm, he]⟩

theorem emit {e : Effect} (h : Like n m) : Like (n.emit e) (m.emit e) := by
  refine ⟨?_, ?_⟩
  · rw [h.eq]
    rfl
  · have hsize : n.clusterSize = m.clusterSize := by rw [h.eq]
    have hfirm := h.firm
    simp only [Node.firm, Node.emit, List.filter_append] at hfirm ⊢
    rw [hfirm, hsize]

end Like

/-- What a function makes of a node: it reads neither the effects nor the broadcast timer, and adds
effects that are not firm. -/
def Blind (f : Node → Node) : Prop :=
  ∀ n : Node, ∃ (n' : Node) (es : List Effect),
    (∀ tr bt, f { n with trace := tr, broadcastTimer := bt } =
      { n' with trace := tr ++ es, broadcastTimer := bt }) ∧
    n'.clusterSize = n.clusterSize ∧ es.filter (Effect.firm n.clusterSize) = []

namespace Blind

variable {f g : Node → Node} {n m : Node}

theorem like (hf : Blind f) (h : Like n m) : Like (f n) (f m) := by
  obtain ⟨n', es, heq, hsize, hes⟩ := hf m
  have hn : f n = { n' with trace := n.trace ++ es, broadcastTimer := m.broadcastTimer } := by
    rw [← heq n.trace m.broadcastTimer, ← h.eq]
  have hm : f m = { n' with trace := m.trace ++ es, broadcastTimer := m.broadcastTimer } :=
    heq m.trace m.broadcastTimer
  have hfirm := h.firm
  have hnm : n.clusterSize = m.clusterSize := by rw [h.eq]
  refine ⟨by rw [hn, hm], ?_⟩
  rw [hn, hm]
  simp only [Node.firm, List.filter_append, hsize, hes, List.append_nil] at hfirm ⊢
  rwa [hnm] at hfirm

/-- A blind function comes before or after an effect. -/
theorem emit (hf : Blind f) (e : Effect) (n : Node) : Like ((f n).emit e) (f (n.emit e)) := by
  obtain ⟨n', es, heq, hsize, hes⟩ := hf n
  rw [show f n = { n' with trace := n.trace ++ es, broadcastTimer := n.broadcastTimer } from
      heq n.trace n.broadcastTimer,
    show f (n.emit e) = { n' with
      trace := n.trace ++ [e] ++ es
      broadcastTimer := n.broadcastTimer } from heq (n.trace ++ [e]) n.broadcastTimer]
  refine ⟨rfl, ?_⟩
  simp only [Node.firm, Node.emit, List.filter_append, hsize, hes, List.append_nil]

/-- It comes before or after the start of the broadcast timer. -/
theorem startBroadcastTimer (hf : Blind f) (n : Node) :
    (f n).startBroadcastTimer = f n.startBroadcastTimer := by
  obtain ⟨n', es, heq, -⟩ := hf n
  rw [show f n = { n' with trace := n.trace ++ es, broadcastTimer := n.broadcastTimer } from
      heq n.trace n.broadcastTimer,
    show f n.startBroadcastTimer = { n' with trace := n.trace ++ es, broadcastTimer := true } from
      heq n.trace true]
  rfl

theorem id : Blind fun n => n := fun n => ⟨n, [], fun _ _ => by simp, rfl, rfl⟩

theorem comp (hg : Blind g) (hf : Blind f) : Blind fun n => g (f n) := by
  intro n
  obtain ⟨n', es, heq, hsize, hes⟩ := hf n
  obtain ⟨n'', es', heq', hsize', hes'⟩ := hg n'
  refine ⟨n'', es ++ es', fun tr bt => ?_, hsize'.trans hsize, ?_⟩
  · change g (f _) = _
    rw [heq, heq', List.append_assoc]
  · rw [List.filter_append, hes, ← hsize, hes', List.append_nil]

theorem size (hf : Blind f) (n : Node) : (f n).clusterSize = n.clusterSize := by
  obtain ⟨n', es, heq, hsize, -⟩ := hf n
  rw [show f n = { n' with trace := n.trace ++ es, broadcastTimer := n.broadcastTimer } from
    heq n.trace n.broadcastTimer]
  exact hsize

theorem firm (hf : Blind f) (n : Node) : (f n).firm = n.firm := by
  obtain ⟨n', es, heq, hsize, hes⟩ := hf n
  rw [show f n = { n' with trace := n.trace ++ es, broadcastTimer := n.broadcastTimer } from
    heq n.trace n.broadcastTimer]
  simp only [Node.firm, List.filter_append, hsize, hes, List.append_nil]

end Blind

/-- A call of `commit_command` whose callbacks do nothing. -/
theorem blind_commitCommand (command : Option Command) : Blind (commitCommand .plain command) := by
  intro n
  by_cases hl : n.isLeader = false
  · exact ⟨{ n with promises := n.promises + 1 },
      [.resolved n.promises ⟨n.store.logsSize, none, false⟩], fun tr bt => if_pos hl, rfl, rfl⟩
  let log : LogEntry := ⟨n.store.logsSize, n.store.currentTerm, command⟩
  by_cases hsize : n.clusterSize ≤ 1
  · let s := ContextStore.pushLog Env.plain.putOk (some log) { n.store with journal := [] }
    let puts : List Effect := s.2.journal.map fun p => .put p.1 p.2
    refine ⟨{ n with promises := n.promises + 1, store := { s.2 with journal := [] } },
      puts ++ Core.completeNotices n.promises log, fun tr bt => ?_, rfl, ?_⟩
    · refine ((if_neg hl).trans (if_pos hsize)).trans ?_
      rw [show tr ++ (puts ++ Core.completeNotices n.promises log) =
        tr ++ puts ++ [.committed log.id log.command] ++
          [.resolved n.promises ⟨log.id, log.command, true⟩] by simp [Core.completeNotices]]
      rfl
    · rw [List.filter_append, filter_puts (f := Effect.firm n.clusterSize) fun _ _ => rfl]
      simp [Core.completeNotices, Effect.firm, hsize]
  · by_cases hpend : n.pendingCommit.any (·.log.id = n.store.logsSize)
    · refine ⟨{ n with promises := n.promises + 1 },
        [.resolved n.promises ⟨n.store.logsSize, none, false⟩], fun tr bt => ?_, rfl, rfl⟩
      refine ((if_neg hl).trans (if_neg hsize)).trans ?_
      simp only [setPendingCommit, ne_eq, not_true_eq_false, if_false, hpend, if_true]
      rfl
    · refine ⟨{ n with
        promises := n.promises + 1
        pendingCommit := some ⟨log, n.promises, fun _ => none⟩ }, [], fun tr bt => ?_, rfl, rfl⟩
      refine ((if_neg hl).trans (if_neg hsize)).trans ?_
      simp only [setPendingCommit, ne_eq, not_true_eq_false, if_false, hpend, List.append_nil]
      rfl

theorem blind_asked (cs : List Command) : Blind (asked cs) := by
  induction cs with
  | nil => exact .id
  | cons c cs ih => exact ih.comp (blind_commitCommand (some c))

/-! ## Callbacks and calls -/

/-- The node is what it is without the calls, followed by calls. -/
def Served (n m : Node) : Prop := ∃ cs, Like n (m.asked cs)

namespace Served

variable {n m k : Node}

theorem of_like (h : Like n m) : Served n m := ⟨[], h⟩

theorem refl (n : Node) : Served n n := of_like (.refl n)

theorem trans (h : Served n m) (h' : Served m k) : Served n k := by
  obtain ⟨cs, hn⟩ := h
  obtain ⟨ds, hm⟩ := h'
  refine ⟨ds ++ cs, ?_⟩
  rw [asked_append]
  exact hn.trans ((blind_asked cs).like hm)

theorem emit (h : Served n m) (e : Effect) : Served (n.emit e) (m.emit e) := by
  obtain ⟨cs, hn⟩ := h
  exact ⟨cs, hn.emit.trans ((blind_asked cs).emit e m)⟩

/-- A call comes after the calls. -/
theorem commitCommand (h : Served n m) (command : Command) :
    Served (commitCommand .plain (some command) n) m := by
  obtain ⟨cs, hn⟩ := h
  refine ⟨cs ++ [command], ?_⟩
  rw [asked_append]
  exact (blind_commitCommand (some command)).like hn

theorem startBroadcastTimer (h : Served n m) :
    Served n.startBroadcastTimer m.startBroadcastTimer := by
  obtain ⟨cs, hn⟩ := h
  refine ⟨cs, ?_⟩
  rw [← (blind_asked cs).startBroadcastTimer]
  refine ⟨?_, hn.firm⟩
  rw [hn.eq]
  rfl

end Served

end Node

/-- User callbacks that come down to calls. -/
structure Env.Calling (env : Env) : Prop where
  putOk : env.putOk = Env.plain.putOk
  onCommitted : ∀ id command n, Node.Served (env.onCommitted id command n) n
  onReverted : ∀ id n, Node.Served (env.onReverted id n) n
  onResponse : ∀ response n, Node.Served (env.onResponse response n) n
  onLifecycle : ∀ state n, Node.Served (env.onLifecycle state n) n

namespace Node

section

variable {env : Env} (henv : env.Calling)
include henv

theorem served_resolve (promise : Nat) (response : CommandCommitResponse) (n : Node) :
    Served (resolve env promise response n) (resolve .plain promise response n) :=
  henv.onResponse _ _

theorem served_invokeCommitCallback (log : LogEntry) (n : Node) :
    Served (invokeCommitCallback env log n) (invokeCommitCallback .plain log n) :=
  henv.onCommitted _ _ _

theorem served_completeCommit (promise : Nat) (log : LogEntry) (n : Node) :
    Served (completeCommit env promise log true n) (completeCommit .plain promise log true n) := by
  unfold completeCommit
  simp only [if_true, henv.putOk]
  refine (served_resolve henv _ _ _).trans ?_
  exact (served_invokeCommitCallback henv log _).emit _

/-- The callbacks of a call make more calls. -/
theorem served_commitCommand (command : Option Command) (n : Node) :
    Served (commitCommand env command n) (commitCommand .plain command n) := by
  unfold commitCommand
  simp only
  split
  · exact served_resolve henv _ _ _
  split
  · exact served_completeCommit henv _ _ _
  unfold setPendingCommit
  simp only [ne_eq, not_true_eq_false, if_false]
  split
  · exact served_resolve henv _ _ _
  · exact .refl _

theorem Asks.served {n n' : Node} (h : Asks env n n') : Served n' n := by
  induction h with
  | nothing => exact .refl n
  | commitCommand command _ ih =>
    exact (served_commitCommand henv (some command) _).trans (ih.commitCommand command)

end

end Node

/-- **Callbacks that call back come down to calls.** -/
theorem Env.User.calling {env : Env} (h : env.User) : env.Calling := by
  induction h with
  | plain =>
    exact ⟨rfl, fun _ _ _ => .refl _, fun _ _ => .refl _, fun _ _ => .refl _, fun _ _ => .refl _⟩
  | calls _ hp h1 h2 h3 h4 ih =>
    exact ⟨hp, fun id command n => (h1 id command n).served ih, fun id n => (h2 id n).served ih,
      fun response n => (h3 response n).served ih, fun state n => (h4 state n).served ih⟩

namespace Node

/-- A call does not cut the log. -/
theorem logs_commitCommand (command : Option Command) (n : Node) :
    n.store.logs <+: (commitCommand .plain command n).store.logs := by
  have hcore := (commitCommand_spec command n).core
  have hlogs : (commitCommand .plain command n).store.logs =
      (n.core.commitCommand command n.promises).logs := congrArg Core.logs hcore
  rw [hlogs]
  unfold Core.commitCommand Logs.push
  split
  · exact List.prefix_rfl
  split
  · simp only
    split
    · exact List.prefix_append ..
    · exact List.prefix_rfl
  split <;> exact List.prefix_rfl

theorem logs_asked (cs : List Command) (n : Node) :
    n.store.logs <+: (n.asked cs).store.logs := by
  induction cs generalizing n with
  | nil => exact List.prefix_rfl
  | cons c cs ih => exact (logs_commitCommand (some c) n).trans (ih _)

/-- Calls change neither the state nor the term. -/
theorem stays_asked (cs : List Command) (n : Node) : Stays n (n.asked cs) := by
  induction cs generalizing n with
  | nil => exact .refl n
  | cons c cs ih => exact (stays_commitCommand Env.plain_reentrant.mild (some c) n).trans (ih _)

theorem Served.state {n m : Node} (h : Served n m) : n.state = m.state := by
  obtain ⟨cs, hn⟩ := h
  rw [hn.eq]
  exact (stays_asked cs m).state

/-! ## Calls of a follower -/

/-- The same node after calls that were refused. -/
structure Refused (n m : Node) : Prop where
  eq : ∃ k, n = { m with promises := m.promises + k, trace := n.trace }
  firm : n.firm = m.firm

theorem commitCommand_refused (command : Option Command) {n : Node} (hs : n.state ≠ .leader) :
    commitCommand .plain command n =
      { n with
        promises := n.promises + 1
        trace := n.trace ++ [.resolved n.promises ⟨n.store.logsSize, none, false⟩] } :=
  if_pos (show n.isLeader = false by simp [isLeader, hs])

/-- Where the node is no leader, calls are refused. -/
theorem refused_asked (cs : List Command) {n : Node} (hs : n.state ≠ .leader) :
    Refused (n.asked cs) n := by
  induction cs generalizing n with
  | nil => exact ⟨⟨0, rfl⟩, rfl⟩
  | cons c cs ih =>
    change Refused ((commitCommand .plain (some c) n).asked cs) n
    rw [commitCommand_refused (some c) hs]
    obtain ⟨⟨k, hk⟩, hfirm⟩ := ih (n := { n with
      promises := n.promises + 1
      trace := n.trace ++ [.resolved n.promises ⟨n.store.logsSize, none, false⟩] }) hs
    refine ⟨⟨1 + k, ?_⟩, ?_⟩
    · rw [← Nat.add_assoc]
      exact hk
    · rw [hfirm]
      simp [Node.firm, Effect.firm]

theorem Served.refused {n m : Node} (h : Served n m) (hs : m.state ≠ .leader) : Refused n m := by
  obtain ⟨cs, hn⟩ := h
  obtain ⟨⟨k, hk⟩, hfirm⟩ := refused_asked cs hs
  refine ⟨⟨k, ?_⟩, hn.firm.trans hfirm⟩
  rw [hn.eq, hk]

namespace Refused

variable {n m l : Node}

theorem refl (n : Node) : Refused n n := ⟨⟨0, rfl⟩, rfl⟩

theorem trans (h : Refused n m) (h' : Refused m l) : Refused n l := by
  obtain ⟨⟨k, hk⟩, hfirm⟩ := h
  obtain ⟨⟨k', hk'⟩, hfirm'⟩ := h'
  refine ⟨⟨k' + k, ?_⟩, hfirm.trans hfirm'⟩
  rw [hk, hk', Nat.add_assoc]

theorem of_like (h : Like n m) : Refused n m := ⟨⟨0, h.eq⟩, h.firm⟩

/-- Refused calls come last as well. -/
theorem served (h : Refused n m) (hs : m.state ≠ .leader) : Served n m := by
  obtain ⟨⟨k, hk⟩, hfirm⟩ := h
  have hasked : ∀ k,
      Like { m with promises := m.promises + k } (m.asked (List.replicate k [])) := by
    intro k
    induction k with
    | zero => exact .refl m
    | succ k ih =>
      rw [List.replicate_succ', asked_append]
      have hcall := (blind_commitCommand (some [])).like ih
      rw [commitCommand_refused (some []) (n := { m with promises := m.promises + k }) hs] at hcall
      refine .trans (.symm ?_) hcall
      exact .quiet (n := { m with promises := m.promises + (k + 1) }) rfl
  have hlike : Like n { m with promises := m.promises + k } := ⟨hk, hfirm⟩
  exact ⟨_, hlike.trans (hasked k)⟩

theorem state (h : Refused n m) : n.state = m.state := by
  obtain ⟨⟨k, hk⟩, -⟩ := h
  rw [hk]

theorem store (h : Refused n m) : n.store = m.store := by
  obtain ⟨⟨k, hk⟩, -⟩ := h
  rw [hk]

theorem emit (h : Refused n m) (e : Effect) : Refused (n.emit e) (m.emit e) := by
  obtain ⟨⟨k, hk⟩, hfirm⟩ := h
  have hsize : n.clusterSize = m.clusterSize := by rw [hk]
  refine ⟨⟨k, ?_⟩, ?_⟩
  · rw [hk]
    rfl
  · simp only [Node.firm, Node.emit, List.filter_append] at hfirm ⊢
    rw [hfirm, hsize]

/-- Work on the store. -/
theorem onStore {α : Type} (f : ContextStore → α × ContextStore) (h : Refused n m) :
    (n.onStore f).1 = (m.onStore f).1 ∧ Refused (n.onStore f).2 (m.onStore f).2 := by
  have hstore := h.store
  obtain ⟨⟨k, hk⟩, hfirm⟩ := h
  have hsize : n.clusterSize = m.clusterSize := by rw [hk]
  refine ⟨?_, ⟨k, ?_⟩, ?_⟩
  · simp only [Node.onStore, hstore]
  · simp only [Node.onStore, hstore]
    rw [hk]
  · have hputs := filter_puts (f := Effect.firm n.clusterSize) fun _ _ => rfl
    simp only [Node.firm, Node.onStore, List.filter_append, hsize] at hfirm hputs ⊢
    rw [hfirm, hputs, hputs]

theorem startElectionTimer (h : Refused n m) :
    Refused n.startElectionTimer m.startElectionTimer := by
  obtain ⟨⟨k, hk⟩, hfirm⟩ := h
  refine ⟨⟨k, ?_⟩, hfirm⟩
  rw [hk]
  rfl

theorem setBroadcastReceived (h : Refused n m) :
    Refused { n with broadcastReceived := true } { m with broadcastReceived := true } := by
  obtain ⟨⟨k, hk⟩, hfirm⟩ := h
  refine ⟨⟨k, ?_⟩, hfirm⟩
  rw [hk]

end Refused

/-! ## The end of a leadership -/

/-- A leader with peers has a commit pending after a call. -/
theorem commitCommand_pends (command : Option Command) {n : Node} (hs : n.state = .leader)
    (hsize : 1 < n.clusterSize) :
    (commitCommand .plain command n).state = .leader ∧
      1 < (commitCommand .plain command n).clusterSize ∧
      (commitCommand .plain command n).pendingCommit.isSome := by
  have hl : ¬ n.isLeader = false := by simp [isLeader, hs]
  have hcall : commitCommand .plain command n = _ :=
    (if_neg hl).trans (if_neg (by simpa using hsize))
  rw [hcall]
  by_cases hp : n.pendingCommit.any (·.log.id = n.store.logsSize)
  · simp only [setPendingCommit, ne_eq, not_true_eq_false, if_false, hp, if_true]
    refine ⟨hs, hsize, ?_⟩
    change n.pendingCommit.isSome
    cases hn : n.pendingCommit with
    | none => simp [hn] at hp
    | some commit => rfl
  · simp only [setPendingCommit, ne_eq, not_true_eq_false, if_false, hp]
    exact ⟨hs, hsize, rfl⟩

theorem pending_asked {cs : List Command} (hcs : cs ≠ []) {n : Node} (hs : n.state = .leader)
    (hsize : 1 < n.clusterSize) : (n.asked cs).pendingCommit.isSome := by
  obtain ⟨cs, c, rfl⟩ := (List.eq_nil_or_concat' cs).resolve_left hcs
  have hkeep : ∀ cs, (n.asked cs).state = .leader ∧ 1 < (n.asked cs).clusterSize := by
    intro cs
    induction cs using List.reverseRecOn with
    | nil => exact ⟨hs, hsize⟩
    | append_singleton cs c ih =>
      rw [asked_append]
      obtain ⟨h1, h2, -⟩ := commitCommand_pends (some c) ih.1 ih.2
      exact ⟨h1, h2⟩
  rw [asked_append]
  exact (commitCommand_pends (some c) (hkeep cs).1 (hkeep cs).2).2.2

variable {env : Env}

/-- A patient user makes no call while its leader steps down. -/
theorem like_exitState (henv : env.Calling) (hpatient : env.Patient) {n : Node}
    (hs : n.state = .leader) (hsize : n.pendingCommit.isSome → 1 < n.clusterSize) :
    Like (exitState env .leader n) (exitState .plain .leader n) := by
  change Like (cancelPendingCommit env n.stopBroadcastTimer)
    (cancelPendingCommit .plain n.stopBroadcastTimer)
  unfold cancelPendingCommit
  cases hp : n.pendingCommit with
  | none =>
    rw [show n.stopBroadcastTimer.pendingCommit = none from hp]
    exact .refl _
  | some commit =>
    rw [show n.stopBroadcastTimer.pendingCommit = some commit from hp]
    let m : Node := { n.stopBroadcastTimer with pendingCommit := none }
    let r : CommandCommitResponse := ⟨commit.log.id, commit.log.command, false⟩
    change Like (resolve env commit.promise r m) (resolve .plain commit.promise r m)
    obtain ⟨cs, hcs⟩ := served_resolve henv commit.promise r m
    cases cs with
    | nil => exact hcs
    | cons c cs =>
      have hnone := hpatient r (m.emit (.resolved commit.promise r)) rfl hs rfl
      have hsome := pending_asked (List.cons_ne_nil c cs)
        (n := m.emit (.resolved commit.promise r)) hs (hsize (by rw [hp]; rfl))
      change (resolve env commit.promise r m).pendingCommit = none at hnone
      rw [hcs.eq] at hnone
      rw [show (asked (c :: cs) (m.emit (.resolved commit.promise r))).pendingCommit = none from
        hnone] at hsome
      cases hsome

theorem not_leader {st : StateType} (h : st = .standby ∨ st = .follower) : st ≠ .leader := by
  rcases h with rfl | rfl <;> decide

/-- A follower is entered; the calls of its lifecycle callback are refused. -/
theorem refused_enter (henv : env.Calling) (startElection : Node → Node) {n m : Node}
    (h : Like n m) (hs : m.state = .follower) :
    Refused (entered env startElection n) (entered .plain startElection m) ∧
      (entered .plain startElection m).state = .follower := by
  have hlife : n.lifecycle = m.lifecycle := by rw [h.eq]
  have hstate : n.state = .follower := by rw [h.eq]; exact hs
  have hnotice : Refused (handleLifecycle env (lifecycleEvent n.state) n)
      (handleLifecycle .plain (lifecycleEvent m.state) m) := by
    unfold handleLifecycle
    rw [hlife, show lifecycleEvent n.state = lifecycleEvent m.state by rw [hstate, hs]]
    split
    · exact .of_like h
    · rename_i next _
      have hset : Like ({ n with lifecycle := next }.emit (.lifecycle next))
          ({ m with lifecycle := next }.emit (.lifecycle next)) := by
        refine .emit ⟨?_, h.firm⟩
        rw [h.eq]
      refine Refused.trans ((henv.onLifecycle next _).refused ?_) (.of_like hset)
      change n.state ≠ .leader
      simp [hstate]
  have hplain : (handleLifecycle .plain (lifecycleEvent m.state) m).state = .follower := by
    obtain ⟨q, -, he⟩ := handleLifecycle_eq m.state m
    rw [he]
    exact hs
  unfold entered
  simp only [hnotice.state, hplain]
  exact ⟨hnotice.startElectionTimer, hplain⟩

/-- A new term or a discovered leader. The calls made on the way are those of a follower. -/
theorem refused_raise (henv : env.Calling) (hpatient : env.Patient) {ev : Event}
    (hev : ev = .newTermReceived ∨ ev = .leaderDiscovered) {n : Node}
    (hsize : n.pendingCommit.isSome → 1 < n.clusterSize) :
    Refused (raise env ev n) (raise .plain ev n) ∧
      ((raise .plain ev n).state = .standby ∨ (raise .plain ev n).state = .follower) := by
  rcases transitionMap_down hev n.state with ⟨hs, htr⟩ | ⟨hs, htr⟩
  · rw [raise_none htr, raise_none htr]
    exact ⟨.refl n, hs⟩
  · rw [raise_some htr, raise_some htr]
    have hset : Like { exitState env n.state n with state := .follower }
        { exitState .plain n.state n with state := .follower } := by
      rcases hs with hs | hs <;> rw [hs]
      · exact .refl _
      · have hexit := like_exitState henv hpatient hs hsize
        refine ⟨?_, hexit.firm⟩
        rw [hexit.eq]
    obtain ⟨h1, h2⟩ := refused_enter henv (fun n => n) hset rfl
    exact ⟨h1, .inr h2⟩

/-- An election that is won; the calls of the callback come after it. -/
theorem served_raise_elected (henv : env.Calling) (n : Node) :
    Served (raise env .elected n) (raise .plain .elected n) := by
  unfold raise handleWith
  cases hs : n.state with
  | candidate =>
    simp only [transitionMap, onEvent, hs, exitState]
    have hlife : Served (handleLifecycle env .activate { n with state := .leader })
        (handleLifecycle .plain .activate { n with state := .leader }) := by
      unfold handleLifecycle
      split
      · exact .refl _
      · exact henv.onLifecycle _ _
    have hplain :
        (handleLifecycle .plain .activate { n with state := .leader }).state = .leader := by
      obtain ⟨q, -, he⟩ := handleLifecycle_eq .leader { n with state := .leader }
      exact congrArg Node.state he
    simp only [lifecycleEvent]
    rw [hlife.state, hplain]
    exact hlife.startBroadcastTimer
  | _ => exact .refl n

/-! ## Terms and elections -/

section

variable (henv : env.Calling)
include henv

theorem resetVote_calling (n : Node) : resetVote env n = resetVote .plain n := by
  simp only [resetVote, henv.putOk]

theorem voteForMe_calling (n : Node) : voteForMe env n = voteForMe .plain n := by
  simp only [voteForMe, henv.putOk]

theorem increaseTerm_calling (n : Node) : increaseTerm env n = increaseTerm .plain n := by
  simp only [increaseTerm, updateTerm, henv.putOk, resetVote_calling henv, Bool.true_eq_false,
    if_false]

theorem vote_calling (term id lastDataIndex lastDataTerm : Nat) (n : Node) :
    vote env term id lastDataIndex lastDataTerm n =
      vote .plain term id lastDataIndex lastDataTerm n := by
  simp only [vote, henv.putOk]

theorem served_checkElected (n : Node) : Served (checkElected env n) (checkElected .plain n) := by
  unfold checkElected
  split
  · exact .refl n
  · exact served_raise_elected henv _

theorem served_startElection (n : Node) :
    Served (startElection env n) (startElection .plain n) := by
  unfold startElection requestVote
  simp only [increaseTerm_calling henv, resetVote_calling henv, voteForMe_calling henv]
  exact served_checkElected henv _

/-- A node that is aligned becomes a candidate without a notice. -/
theorem served_onElectionTimer {n : Node} (hal : n.Aligned) :
    Served (onElectionTimer env n) (onElectionTimer .plain n) := by
  unfold onElectionTimer
  split
  · exact .refl _
  unfold handle handleWith
  cases hs : n.state with
  | follower =>
    have hstay : ∀ e : Env, handleLifecycle e .standby { n with state := .candidate } =
        { n with state := .candidate } := by
      intro e
      unfold handleLifecycle
      rw [show lifecycleMap n.lifecycle .standby = none by rw [hal, hs]; rfl]
    simp only [transitionMap, onEvent, hs, exitState, lifecycleEvent, hstay, entryState]
    exact served_startElection henv _
  | candidate =>
    simp only [transitionMap, onEvent]
    exact served_startElection henv n
  | _ => exact .refl n

/-- A new term; the calls made on the way are those of a follower. -/
theorem refused_updateTerm (hpatient : env.Patient) {n : Node}
    (hsize : n.pendingCommit.isSome → 1 < n.clusterSize) {t : Nat} (ht : n.store.currentTerm < t) :
    (updateTerm env t false n).1 = true ∧
    Refused (updateTerm env t false n).2 (updateTerm .plain t false n).2 ∧
      ((updateTerm .plain t false n).2.state = .standby ∨
        (updateTerm .plain t false n).2.state = .follower) := by
  have he : updateTerm env t false n = (true, raise env .newTermReceived (n.adopt t)) := by
    simp only [updateTerm, show ¬ t ≤ n.store.currentTerm by omega, if_false, if_true,
      resetVote_calling henv, henv.putOk]
    rfl
  rw [he, updateTerm_of_lt ht]
  exact ⟨rfl, refused_raise henv hpatient (.inl rfl) hsize⟩

theorem served_onRequestVoteResponse (hpatient : env.Patient) {n : Node}
    (hsize : n.pendingCommit.isSome → 1 < n.clusterSize) (response : RequestVoteResponse) :
    Served (onRequestVoteResponse env response n) (onRequestVoteResponse .plain response n) := by
  unfold onRequestVoteResponse
  split
  · exact .refl n
  by_cases ht : n.store.currentTerm < response.term
  · obtain ⟨h1, h2, h3⟩ := refused_updateTerm henv hpatient hsize ht
    rw [updateTerm_of_lt ht] at h2 h3 ⊢
    simp only [h1, if_true]
    exact h2.served (not_leader h3)
  · rw [updateTerm_of_le (by omega), updateTerm_of_le (by omega)]
    simp only [Bool.false_eq_true, if_false]
    split
    · exact .refl n
    · exact served_checkElected henv _

theorem served_onRequestVoteRequested (hpatient : env.Patient) {n : Node}
    (hsize : n.pendingCommit.isSome → 1 < n.clusterSize) (request : RequestVoteRequest) :
    (onRequestVoteRequested env request n).1 = (onRequestVoteRequested .plain request n).1 ∧
    Served (onRequestVoteRequested env request n).2
      (onRequestVoteRequested .plain request n).2 := by
  unfold onRequestVoteRequested
  split
  · exact ⟨rfl, .refl n⟩
  simp only [vote_calling henv]
  by_cases ht : n.store.currentTerm < request.term
  · obtain ⟨-, h2, h3⟩ := refused_updateTerm henv hpatient hsize ht
    have hs : (updateTerm .plain request.term false n).2.state ≠ .leader := not_leader h3
    unfold vote
    rw [h2.store]
    simp only
    split
    · obtain ⟨-, hfor⟩ := h2.onStore (·.setVotedFor Env.plain.putOk request.candidateId)
      exact ⟨rfl, (hfor.onStore (·.setVoted Env.plain.putOk true)).2.served hs⟩
    · exact ⟨rfl, h2.served hs⟩
  · rw [updateTerm_of_le (by omega), updateTerm_of_le (by omega)]
    exact ⟨rfl, .refl _⟩

/-! ## Replication -/

omit henv in
theorem onBroadcastTimer_calling (n : Node) :
    handle env .broadcastTimedout n = handle .plain .broadcastTimedout n := by
  unfold handle handleWith
  cases hs : n.state <;> simp [transitionMap, onEvent]

theorem served_handlePendingCommitResponse (id commitIndex term : Nat) (success : Bool)
    (n : Node) :
    Served (handlePendingCommitResponse env id commitIndex term success n)
      (handlePendingCommitResponse .plain id commitIndex term success n) := by
  unfold handlePendingCommitResponse
  split
  · exact .refl n
  split
  · exact .refl n
  simp only
  split
  · exact .refl _
  · exact served_completeCommit henv _ _ _

/-- What was pending in a node that steps down is no longer. -/
theorem served_onBroadcastResponse (hpatient : env.Patient) {m : Node}
    (hpend : ∀ commit ∈ m.pendingCommit, m.state = .leader)
    (hsize : m.pendingCommit.isSome → 1 < m.clusterSize) (id commitIndex term : Nat)
    (success : Bool) :
    Served (onBroadcastResponse env id commitIndex term success m)
      (onBroadcastResponse .plain id commitIndex term success m) := by
  unfold onBroadcastResponse
  simp only
  by_cases ht : m.store.currentTerm < term
  · rw [if_pos (Nat.le_of_lt ht), if_pos (Nat.le_of_lt ht)]
    obtain ⟨-, h2, h3⟩ := refused_updateTerm henv hpatient hsize ht
    have hnone : (updateTerm .plain term false m).2.pendingCommit = none := by
      have hcore := (updateTerm_spec term m).core
      have hp := congrArg Core.pending hcore
      rw [Core.observe_of_lt (c := m.core) ht] at hp
      refine Eq.trans hp ?_
      rcases Core.down_pending (c := Core.resetVote { m.core with term := term })
        with h | ⟨h, hl⟩
      · exact h
      · rw [h]
        cases hc : m.pendingCommit with
        | none => exact hc
        | some commit => exact absurd (hpend commit hc) hl
    have hnone' : (updateTerm env term false m).2.pendingCommit = none := by
      obtain ⟨⟨k, hk⟩, -⟩ := h2
      rw [hk]
      exact hnone
    unfold handlePendingCommitResponse
    rw [hnone, hnone']
    exact h2.served (not_leader h3)
  · have hsame : ∀ e : Env, (if term ≥ m.store.currentTerm then
        (updateTerm e term false m).2 else m) = m := by
      intro e
      rw [updateTerm_of_le (by omega), ite_self]
    rw [hsame, hsame]
    exact served_handlePendingCommitResponse henv _ _ _ _ _

theorem served_onAppendEntriesResponse (hpatient : env.Patient) {n : Node}
    (hpend : ∀ commit ∈ n.pendingCommit, n.state = .leader)
    (hsize : n.pendingCommit.isSome → 1 < n.clusterSize) (id : Nat)
    (request : AppendEntriesRequest) (response : AppendEntriesResponse) :
    Served (onAppendEntriesResponse env id request response n)
      (onAppendEntriesResponse .plain id request response n) :=
  served_onBroadcastResponse henv hpatient (m := { n with
    otherNodes := n.otherNodes.map fun node =>
      if node.nodeId = id then updateIndex request response node else node }) hpend hsize _ _ _ _

/-- The entry of a request, handled by a follower. -/
theorem refused_tracks : Tracks env fun n m => Refused n m ∧ m.state ≠ .leader where
  putOk := henv.putOk
  store h := h.1.store
  onStore f _ _ h := ⟨(h.1.onStore f).2, h.2⟩
  committed log n m h := by
    have hnotice := h.1.emit (.committed log.id log.command)
    refine ⟨Refused.trans ((henv.onCommitted _ _ _).refused ?_) hnotice, h.2⟩
    rw [hnotice.state]
    exact h.2
  reverted id n m h := by
    have hnotice := h.1.emit (.reverted id)
    refine ⟨Refused.trans ((henv.onReverted _ _).refused ?_) hnotice, h.2⟩
    rw [hnotice.state]
    exact h.2

/-- The entry of a request is handled by a follower, unless the request deposes nobody. -/
theorem served_onAppendEntriesRequested (hpatient : env.Patient) {n : Node}
    (hsize : n.pendingCommit.isSome → 1 < n.clusterSize) {request : AppendEntriesRequest}
    (hd : ¬ n.Deposed (.appendEntries request)) :
    (onAppendEntriesRequested env request n).1 = (onAppendEntriesRequested .plain request n).1 ∧
    Served (onAppendEntriesRequested env request n).2
      (onAppendEntriesRequested .plain request n).2 := by
  have happend : ∀ {x y : Node}, Refused x y → y.state ≠ .leader →
      (appendRequested env request x).1 = (appendRequested .plain request y).1 ∧
      Served (appendRequested env request x).2 (appendRequested .plain request y).2 := by
    intro x y h hs
    obtain ⟨h1, h2, hs'⟩ := (refused_tracks henv).appendRequested request ⟨h, hs⟩
    exact ⟨h1, h2.served hs'⟩
  unfold onAppendEntriesRequested
  split
  · exact ⟨rfl, .refl n⟩
  simp only
  by_cases ht : request.term < n.store.currentTerm
  · simp only [ht, if_true]
    by_cases hl : n.state = .leader
    · have hent : request.entries = [] := by
        by_contra hne
        exact hd ⟨hl, hne, ht⟩
      unfold appendRequested
      rw [hent]
      exact ⟨rfl, .refl n⟩
    · obtain ⟨h1, h2⟩ := happend (.refl n) hl
      exact ⟨by rw [h1], h2⟩
  simp only [ht, if_false]
  by_cases hlt : n.store.currentTerm < request.term
  · obtain ⟨-, h2, h3⟩ := refused_updateTerm henv hpatient hsize hlt
    have hstay : ∀ (e : Env) (x : Node), (x.state = .standby ∨ x.state = .follower) →
        raise e .leaderDiscovered x = x := by
      intro e x hx
      unfold raise handleWith
      rcases hx with hx | hx <;> rw [hx] <;> rfl
    have h2' := h2.setBroadcastReceived
    rw [hstay _ _ (by rw [h2'.state]; exact h3), hstay .plain _ (by exact h3)]
    obtain ⟨h4, h5⟩ := happend h2' (not_leader h3)
    exact ⟨by rw [h4], h5⟩
  · rw [updateTerm_of_le (by omega), updateTerm_of_le (by omega)]
    obtain ⟨h2, h3⟩ := refused_raise henv hpatient (.inr rfl)
      (n := { n with broadcastReceived := true }) hsize
    obtain ⟨h4, h5⟩ := happend h2 (not_leader h3)
    exact ⟨by rw [h4], h5⟩

end

/-! ## Callbacks -/

/-- The start of a node fulfils no promise. -/
theorem resolved_create (ids : List Nat) (nodeId : Nat) (db : LevelDB) (promise : Nat)
    (response : CommandCommitResponse) :
    .resolved promise response ∉ (create .plain ids nodeId db).trace := by
  have htrace : (create .plain ids nodeId db).trace =
      ((ContextStore.create Env.plain.putOk db).journal.map fun p => Effect.put p.1 p.2) ++
        [.lifecycle .standby] := rfl
  rw [htrace]
  simp

/-- **A callback is what it is without the user's calls, followed by the calls.** -/
theorem run_served (henv : env.Calling) (hpatient : env.Patient) {n : Node} (hal : n.Aligned)
    (hpend : ∀ commit ∈ n.pendingCommit, n.state = .leader)
    (hsize : n.pendingCommit.isSome → 1 < n.clusterSize) {input : Input} (hd : ¬ n.Deposed input) :
    Served (n.run env input) (n.run .plain input) := by
  unfold run dispatch
  cases input with
  | electionTimer =>
    simp only
    split
    · exact served_onElectionTimer henv hal
    · exact .refl _
  | broadcastTimer =>
    simp only [onBroadcastTimer_calling]
    exact .refl _
  | commitCommand command => exact served_commitCommand henv command _
  | appendEntries request =>
    obtain ⟨h1, h2⟩ := served_onAppendEntriesRequested henv hpatient
      (n := { n with trace := [] }) hsize hd
    simp only
    rw [h1]
    exact h2.emit _
  | requestVote request =>
    obtain ⟨h1, h2⟩ := served_onRequestVoteRequested henv hpatient
      (n := { n with trace := [] }) hsize request
    simp only
    rw [h1]
    exact h2.emit _
  | appendEntriesResponse id request response =>
    exact served_onAppendEntriesResponse henv hpatient (n := { n with trace := [] }) hpend hsize
      id request response
  | requestVoteResponse response =>
    exact served_onRequestVoteResponse henv hpatient (n := { n with trace := [] }) hsize response

end Node

/-! ## A user -/

/-- A user that commits a second command when the first one has been committed. -/
def Env.onward : Env := { Env.plain with
  onResponse := fun response n =>
    if response.result = true ∧ response.id = 0 then Node.commitCommand .plain (some [2]) n
    else n }

theorem Env.onward_user : Env.onward.User := by
  refine .calls .plain rfl (fun _ _ _ => .nothing) (fun _ _ => .nothing) (fun response n => ?_)
    fun _ _ => .nothing
  change Node.Asks .plain n (if response.result = true ∧ response.id = 0 then
    Node.commitCommand .plain (some [2]) n else n)
  split
  · exact .commitCommand _ .nothing
  · exact .nothing

theorem Env.onward_patient : Env.onward.Patient := by
  intro response n hr _ hp
  change (if response.result = true ∧ response.id = 0 then
    Node.commitCommand .plain (some [2]) n else n).pendingCommit = none
  rw [if_neg (by simp [hr])]
  exact hp

end Foros
