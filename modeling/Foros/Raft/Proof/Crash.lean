import Foros.Raft.Proof.Commits
import Foros.Raft.Proof.Path

/-!
# Crashes inside a callback

Every callback writes first and sends last (`run_split`). So a callback that is cut has sent
nothing, and its database holds a context in which the vote stands unless the node was free to
change it (`Path.crash`), or it has written everything (`run_cut`). A vote that has left is then in
the database in either case, and a node never makes two votes of one term visible
(`one_vote_per_term`).
-/

namespace Foros

namespace Core

variable {c c' : Core} {input : Input} {e : Effect}

theorem Message.visible (h : Message e) : e.visible = true := by
  cases e <;> simp_all [Message, Effect.visible]

theorem message_of_vote {v : Nat × Nat} (h : e.vote = some v) : Message e := by
  cases e <;> simp_all [Message, Effect.vote]

theorem message_of_terms {t : Nat} (h : t ∈ e.terms) : Message e := by
  cases e <;> simp_all [Message, Effect.terms]

/-- A vote that leaves is the vote of the node. -/
theorem Sends.vote (h : c.Sends input c' e) {T d : Nat} (hv : e.vote = some (T, d)) :
    T = c'.term ∧ c'.voted = true ∧ c'.votedFor = d := by
  cases h with
  | requestVote _ =>
    cases hv
    refine ⟨rfl, c.campaign_voted, ?_⟩
    exact c.campaign_votedFor.trans c.campaign_nodeId.symm
  | appendEntries _ _ => cases hv
  | appendEntriesResponse request => cases hv
  | requestVoteResponse request =>
    simp only [Effect.vote] at hv
    rcases c.requestVote_cases request with he | he | ⟨-, -, he⟩ <;> rw [he] at hv ⊢
    · cases hv
    · cases hv
    · cases hv
      exact ⟨rfl, rfl, rfl⟩

/-- The terms of the log and of the pending commit are covered by the node's. -/
structure Covered (c : Core) : Prop where
  logs : ∀ log ∈ c.logs, log.term ≤ c.term
  pending : ∀ commit, c.pending = some commit → commit.log.term ≤ c.term

theorem Covered.view (h : c.Covered) : ∀ log ∈ c.view, log.term ≤ c.term := by
  intro log hl
  rcases List.mem_append.1 hl with hl | hl
  · exact h.logs log hl
  · cases hc : c.current with
    | none => simp [hc] at hl
    | some commit =>
      simp only [hc, Option.map_some, Option.toList_some, List.mem_singleton] at hl
      rw [hl]
      exact h.pending commit (current_eq_some.1 hc).1

theorem Covered.entryRequest (h : c.Covered) (i : Nat) :
    (c.entryRequest i).term ≤ c.term ∧ (c.entryRequest i).prevLogTerm ≤ c.term := by
  unfold Core.entryRequest
  split
  · exact ⟨h.view _ (List.mem_of_getElem? ‹_›), Nat.zero_le _⟩
  · exact ⟨Nat.le_refl _, Nat.zero_le _⟩

theorem Covered.appendRequest (h : c.Covered) (node : OtherNode) :
    (c.appendRequest node).term ≤ c.term ∧ (c.appendRequest node).prevLogTerm ≤ c.term := by
  unfold Core.appendRequest
  split
  · exact h.entryRequest _
  · split
    · exact ⟨(h.entryRequest _).1, h.view _ (List.mem_of_getElem? ‹_›)⟩
    · exact h.entryRequest _

/-- The node's term covers the terms it sends. -/
theorem Sends.terms (h : c.Sends input c' e) (hc : c.Covered) (hle : c.term ≤ c'.term) :
    ∀ t ∈ e.terms, t ≤ c'.term := by
  intro t ht
  cases h with
  | requestVote _ =>
    simp only [Effect.terms, List.mem_cons, List.not_mem_nil, or_false] at ht
    rcases ht with rfl | rfl
    · exact Nat.le_refl _
    · refine Nat.le_trans ?_ hle
      simp only [voteRequest, campaign_logs]
      cases hl : c.logs.getLast? with
      | none => exact Nat.zero_le _
      | some log => exact hc.logs log (List.mem_of_getLast? hl)
  | @appendEntries node _ _ =>
    simp only [Effect.terms, List.mem_cons, List.not_mem_nil, or_false] at ht
    rcases ht with rfl | rfl
    · exact (hc.appendRequest node).1
    · exact (hc.appendRequest node).2
  | appendEntriesResponse request =>
    obtain rfl := List.mem_singleton.1 ht
    rcases c.appendEntries_cases request with he | ⟨-, he⟩ | ⟨-, he⟩ <;> rw [he] at hle ⊢
    · exact Nat.zero_le _
    · exact hle
  | requestVoteResponse request =>
    obtain rfl := List.mem_singleton.1 ht
    rcases c.requestVote_cases request with he | he | ⟨-, -, he⟩ <;> rw [he]
    · exact Nat.zero_le _

/-- What is pending stays covered. -/
theorem Step.pending_le {es : List Effect} (h : c.Step input c' es)
    (hp : ∀ commit, c.pending = some commit → commit.log.term ≤ c.term) :
    ∀ commit, c'.pending = some commit → commit.log.term ≤ c'.term := by
  intro commit' hc
  have hle := h.term_le
  rcases h.pending hc with hold | ⟨command, promise, rfl⟩ |
    ⟨commit, id, request, response, hans, hlog, -⟩
  · exact Nat.le_trans (hp _ hold) hle
  · exact hle
  · rw [hlog]
    exact Nat.le_trans (hp _ hans.pending) hle

end Core

namespace Node

variable {n : Node}

/-! ## Writes come first -/

/-- The trace is one without messages, then one without `Put`s. -/
def Split (n : Node) : Prop :=
  ∃ A B, n.trace = A ++ B ∧ (∀ e ∈ A, ¬ Core.Message e) ∧
    ∀ e ∈ B, ∀ key value, e ≠ .put key value

/-- Nothing visible, no message. -/
theorem not_message_of_visible {es : List Effect} (h : es.filter Effect.visible = []) :
    ∀ e ∈ es, ¬ Core.Message e := by
  intro e he hm
  have : e ∈ es.filter Effect.visible := List.mem_filter.2 ⟨he, hm.visible⟩
  rw [h] at this
  cases this

theorem Split.of_not_message (h : ∀ e ∈ n.trace, ¬ Core.Message e) : n.Split :=
  ⟨n.trace, [], by simp, h, by simp⟩

/-- Effects that are not `Put`s at the end. -/
theorem Split.of_append {n' : Node} {es : List Effect} (h : ∀ e ∈ n.trace, ¬ Core.Message e)
    (ht : n'.trace = n.trace ++ es) (hes : ∀ e ∈ es, ∀ key value, e ≠ .put key value) :
    n'.Split := ⟨n.trace, es, ht, h, hes⟩

theorem checkElected_other (n : Node) : Other n (checkElected .plain n) := by
  unfold checkElected
  split
  · exact .refl n
  · have hset : Other n { n with
        otherNodes := n.otherNodes.map (setMatchIndex ((n.store.lastLog.map (·.id)).getD 0)) } :=
      .of_eq rfl rfl rfl rfl (by simp [setMatchIndex, Function.comp_def]) ⟨[], by simp, by simp⟩
    exact hset.trans (raise_elected _).2

/-- An election writes the term and the vote before it asks for votes. -/
theorem startElection_split (h : n.visible = []) : (startElection .plain n).Split := by
  have hprep : ∀ e ∈ n.prepared.resetElectionTimer.trace, ¬ Core.Message e := by
    apply not_message_of_visible
    change n.prepared.visible = []
    rw [(prepared_spec n).visible, h]
    rfl
  have he : startElection .plain n = requestVote .plain n.prepared.resetElectionTimer := rfl
  rw [he]
  generalize n.prepared.resetElectionTimer = m at hprep
  unfold requestVote
  rw [foldl_requestVote]
  obtain ⟨q, hq, hput⟩ := (checkElected_other { m with
    trace := m.trace ++
      m.otherNodes.map fun node => .sendRequestVote node.nodeId m.voteRequest }).trace
  apply Split.of_append hprep (hq.trans (List.append_assoc ..))
  intro e hm
  rcases List.mem_append.1 hm with hm | hm
  · obtain ⟨node, -, rfl⟩ := List.mem_map.1 hm
    exact fun _ _ hput => by cases hput
  · exact hput e hm

theorem onElectionTimer_split (h : n.trace = []) : (onElectionTimer .plain n).Split := by
  have hidle : ∀ {m : Node}, m.trace = [] → m.Split := fun hm => .of_not_message (by simp [hm])
  unfold onElectionTimer
  split
  · exact hidle h
  cases hs : n.state with
  | follower =>
    obtain ⟨q, hq, he⟩ := handle_timedout_eq hs
    rw [he]
    apply startElection_split
    simp [Node.visible, h, hq.visible]
  | candidate =>
    have he : handle .plain .timedout n = Node.startElection .plain n := by
      simp only [handle, handleWith, hs, transitionMap, onEvent]
    rw [he]
    exact startElection_split (by simp [Node.visible, h])
  | standby =>
    have he : handle .plain .timedout n = n := by simp only [handle, handleWith, hs, transitionMap]
    rw [he]
    exact hidle h
  | leader =>
    have he : handle .plain .timedout n = n := by simp only [handle, handleWith, hs, transitionMap]
    rw [he]
    exact hidle h

/-- A callback that sends nothing. -/
theorem split_of_step {n' : Node} {c c' : Core} {input : Input} {es : List Effect}
    (hs : c.Step input c' es) (hv : n'.visible = es)
    (hno : ∀ e, ¬ c.Sends input c' e) : n'.Split := by
  refine .of_not_message fun e he hm => ?_
  exact hno e (hs.sends (hv ▸ List.mem_filter.2 ⟨he, hm.visible⟩) hm)

/-- **A callback writes first and sends last.** -/
theorem run_split (hid : n.LastId) (input : Input) : (run .plain input n).Split := by
  obtain ⟨c', es, hstep, -, hvis, -⟩ := run_step hid input
  have hstart : ∀ {m : Node}, m.trace = [] → m.Split := fun hm => .of_not_message (by simp [hm])
  cases input with
  | electionTimer =>
    simp only [run, dispatch]
    split
    · exact onElectionTimer_split rfl
    · exact hstart rfl
  | broadcastTimer =>
    simp only [run, dispatch]
    split
    · by_cases hs : n.state = .leader
      · have he : handle .plain .broadcastTimedout { n with trace := [] } =
            Node.broadcast { n with trace := [] } := by
          simp only [handle, handleWith, hs, transitionMap, onEvent]
        rw [he, broadcast_eq (n := { n with trace := [] }) hid]
        refine ⟨[], _, rfl, by simp, fun e hm => ?_⟩
        obtain ⟨node, -, rfl⟩ := List.mem_map.1 hm
        exact fun _ _ hput => by cases hput
      · have ht : transitionMap n.state .broadcastTimedout = none := by
          cases hst : n.state <;> simp_all [transitionMap]
        have he : handle .plain .broadcastTimedout { n with trace := [] } =
            { n with trace := [] } := by simp only [handle, handleWith, ht]
        rw [he]
        exact hstart rfl
    · exact hstart rfl
  | commitCommand command => exact split_of_step hstep hvis fun e he => by cases he
  | appendEntries request =>
    have hspec := (onAppendEntriesRequested_spec request { n with trace := [] }).2
    have hno : ∀ e ∈ (onAppendEntriesRequested .plain request { n with trace := [] }).2.trace,
        ¬ Core.Message e := by
      intro e he hm
      have hin : e ∈ (onAppendEntriesRequested .plain request { n with trace := [] }).2.visible :=
        List.mem_filter.2 ⟨he, hm.visible⟩
      rw [hspec.visible] at hin
      exact Core.not_message_appendNotices hin hm
    exact .of_append hno rfl (by simp)
  | requestVote request =>
    have hspec := (onRequestVoteRequested_spec request { n with trace := [] }).2
    have hno : ∀ e ∈ (onRequestVoteRequested .plain request { n with trace := [] }).2.trace,
        ¬ Core.Message e := not_message_of_visible hspec.visible
    exact .of_append hno rfl (by simp)
  | appendEntriesResponse id request response =>
    exact split_of_step hstep hvis fun e he => by cases he
  | requestVoteResponse response => exact split_of_step hstep hvis fun e he => by cases he

/-- **A callback cut after some of its effects** has sent nothing, and its database holds a context
in which the vote stands, or it has written everything. -/
theorem run_cut (h : n.Ok) {input : Input} (hin : input.TermLt)
    (hlen : (run .plain input n).store.logs.length < 2 ^ 64) {p : List Effect}
    (hp : p <+: (run .plain input n).trace) :
    (∀ e ∈ p, ¬ Core.Message e) ∧ Cut n (n.store.db.putAll (puts p)) ∨
      n.store.db.putAll (puts p) = (run .plain input n).store.db := by
  have hpath := run_path h hin hlen
  obtain ⟨A, B, htrace, hA, hB⟩ := run_split h.lastId input
  rw [htrace] at hp
  rcases prefix_append_cases hp with hp | ⟨r, rfl, hr⟩
  · refine .inl ⟨fun e he => hA e (hp.subset he), ?_⟩
    exact hpath.crash h.store (A ++ B) (by simp [htrace]) p (hp.trans (List.prefix_append ..))
  · right
    obtain ⟨es, hes, hdb⟩ := hpath.trace
    have hall : puts es = puts A := by
      rw [show es = A ++ B by rw [← htrace, hes]; rfl, puts_append, puts_eq_nil hB,
        List.append_nil]
    rw [puts_append, puts_prefix_eq_nil hB hr, List.append_nil, hdb, hall]

/-- A callback keeps a node in order, whatever its input. -/
theorem Ok.run (h : n.Ok) {input : Input} (hin : input.TermLt)
    (hlen : (run .plain input n).store.logs.length < 2 ^ 64) : (Node.run .plain input n).Ok := by
  obtain ⟨c', es, hstep, rfl, -, -⟩ := run_step h.lastId input
  have hpath := run_path h hin hlen
  refine ⟨hpath.ok h.store, ?_, fun node hm => ?_, hstep.pending_le h.pending⟩
  · rw [hpath.nodeId]
    exact h.nodeId_lt
  · have hmem : node.nodeId ∈ ({ n with trace := [] } : Node).otherNodes.map (·.nodeId) := by
      rw [← hpath.peers]
      exact List.mem_map_of_mem hm
    obtain ⟨node', hm', he⟩ := List.mem_map.1 hmem
    rw [← he]
    exact h.peers_lt node' hm'

end Node

/-! ## Lives -/

namespace Life

variable {ids : List Nat} {me : Nat} {l l' : Life} {event : LifeEvent}

/-- What holds of a life: the node's term and vote cover everything it has shown. -/
structure Ok (l : Life) : Prop where
  node : l.node.Ok
  votes : ∀ e ∈ l.effects, ∀ T d, e.vote = some (T, d) → T < l.node.core.term ∨
    T = l.node.core.term ∧ l.node.core.voted = true ∧ l.node.core.votedFor = d
  terms : ∀ e ∈ l.effects, ∀ T ∈ e.terms, T ≤ l.node.core.term
  unique : ∀ e ∈ l.effects, ∀ e' ∈ l.effects, ∀ T d d', e.vote = some (T, d) →
    e'.vote = some (T, d') → d = d'

/-- What an event adds: effects that show the node's vote and term. -/
structure Adds (l l' : Life) (es : List Effect) : Prop where
  node : l'.node.Ok
  effects : l'.effects = l.effects ++ es
  le : Core.VoteLe l.node.core l'.node.core
  vote : ∀ e ∈ es, ∀ T d, e.vote = some (T, d) →
    T = l'.node.core.term ∧ l'.node.core.voted = true ∧ l'.node.core.votedFor = d
  terms : ∀ e ∈ es, ∀ T ∈ e.terms, T ≤ l'.node.core.term

theorem Ok.step (h : l.Ok) {es : List Effect} (ha : Adds l l' es) : l'.Ok := by
  have hle := ha.le.term_le
  have hold : ∀ e ∈ l.effects, ∀ T d, e.vote = some (T, d) → T < l'.node.core.term ∨
      T = l'.node.core.term ∧ l'.node.core.voted = true ∧ l'.node.core.votedFor = d := by
    intro e he T d hv
    rcases h.votes e he T d hv with hlt | ⟨rfl, hvoted, hfor⟩
    · exact .inl (Nat.lt_of_lt_of_le hlt hle)
    · rcases Nat.lt_or_eq_of_le hle with hlt | heq
      · exact .inl hlt
      · obtain ⟨h1, h2⟩ := ha.le.vote heq hvoted
        exact .inr ⟨heq, h1, h2.trans hfor⟩
  -- a vote shown now is the node's, and an earlier one of its term is too
  have hmixed : ∀ e ∈ l.effects, ∀ e' ∈ es, ∀ T d d', e.vote = some (T, d) →
      e'.vote = some (T, d') → d = d' := by
    intro e he e' he' T d d' hv hv'
    obtain ⟨hT, -, hfor'⟩ := ha.vote e' he' T d' hv'
    rcases hold e he T d hv with hlt | ⟨-, -, hfor⟩
    · omega
    · exact hfor.symm.trans hfor'
  refine ⟨ha.node, fun e he T d hv => ?_, fun e he T hT => ?_, fun e he e' he' T d d' hv hv' => ?_⟩
  · rw [ha.effects] at he
    rcases List.mem_append.1 he with he | he
    · exact hold e he T d hv
    · exact .inr (ha.vote e he T d hv)
  · rw [ha.effects] at he
    rcases List.mem_append.1 he with he | he
    · exact Nat.le_trans (h.terms e he T hT) hle
    · exact ha.terms e he T hT
  · rw [ha.effects] at he he'
    rcases List.mem_append.1 he with he | he <;> rcases List.mem_append.1 he' with he' | he'
    · exact h.unique e he e' he' T d d' hv hv'
    · exact hmixed e he e' he' T d d' hv hv'
    · exact (hmixed e' he' e he T d' d hv' hv).symm
    · exact (ha.vote e he T d hv).2.2.symm.trans (ha.vote e' he' T d' hv').2.2

/-- A callback that completes shows its own vote and term. -/
theorem shown_of_run {n : Node} (h : n.Ok) (input : Input) {e : Effect}
    (he : e ∈ (n.run .plain input).trace) :
    (∀ T d, e.vote = some (T, d) → T = (n.run .plain input).core.term ∧
      (n.run .plain input).core.voted = true ∧ (n.run .plain input).core.votedFor = d) ∧
    ∀ T ∈ e.terms, T ≤ (n.run .plain input).core.term := by
  obtain ⟨c', es, hstep, rfl, hvis, -⟩ := Node.run_step h.lastId input
  have hsend : Core.Message e → n.core.Sends input (n.run .plain input).core e := by
    intro hm
    exact hstep.sends (hvis ▸ List.mem_filter.2 ⟨he, hm.visible⟩) hm
  refine ⟨fun T d hv => (hsend (Core.message_of_vote hv)).vote hv, fun T hT => ?_⟩
  exact (hsend (Core.message_of_terms hT)).terms ⟨h.store.terms, h.pending⟩ hstep.term_le T hT

/-- A process that starts on the database of `s`. -/
theorem create_core {s : ContextStore} (hs : s.Ok) (ids : List Nat) (me : Nat) :
    (Node.create .plain ids me s.db).core.term = s.currentTerm ∧
      (Node.create .plain ids me s.db).core.voted = s.voted ∧
      (Node.create .plain ids me s.db).core.votedFor = s.votedFor ∧
      (Node.create .plain ids me s.db).core.state = .follower := by
  rw [(Node.create_spec hs.holds ids me).1]
  exact ⟨rfl, rfl, rfl, rfl⟩

theorem adds_of_step (h : l.node.Ok) (hme : me < 2 ^ 32) (hids : ∀ i ∈ ids, i < 2 ^ 32)
    (hin : event.input.TermLt) (hterm : l.node.store.currentTerm < 2 ^ 64 - 1)
    (hs : step ids me l event = some l') : ∃ es, Adds l l' es := by
  unfold step at hs
  simp only at hs
  split at hs
  · rename_i hlen
    have hrun := h.run hin hlen
    have hle : Core.VoteLe l.node.core (l.node.run .plain event.input).core := by
      obtain ⟨c', es, hstep, rfl, -, -⟩ := Node.run_step h.lastId event.input
      exact hstep.voteLe fun _ => hterm
    have hshown := fun e => shown_of_run h event.input (e := e)
    cases event with
    | handle input =>
      obtain ⟨-, hs⟩ := Option.ite_none_left_eq_some.1 hs
      cases hs
      exact ⟨_, hrun, rfl, hle, fun e he => (hshown e he).1, fun e he => (hshown e he).2⟩
    | crash input k =>
      simp only [LifeEvent.input] at hs hin hlen hrun hle hshown
      cases hs
      refine ⟨(l.node.run .plain input).trace.take k, ?_⟩
      have hpre : (l.node.run .plain input).trace.take k <+: (l.node.run .plain input).trace :=
        List.take_prefix ..
      rcases Node.run_cut h hin hlen hpre with ⟨hno, s, hdb, hok, hkept⟩ | hdb
      · -- nothing has left
        rw [← hdb]
        obtain ⟨h1, h2, h3, h4⟩ := create_core hok ids me
        refine ⟨Node.create_ok hok hme hids, rfl, ⟨?_, fun heq hv => ?_, fun _ => ?_⟩,
          fun e he T d hv => absurd (Core.message_of_vote hv) (hno e he),
          fun e he T hT => absurd (Core.message_of_terms hT) (hno e he)⟩
        · rw [h1]
          exact hkept.term_le
        · rw [h1] at heq
          rw [h2, h3]
          rcases hkept.vote with (hfree | hlt | hwrap) | ⟨-, hfor, hvoted⟩
          · rw [show l.node.store.voted = true from hv] at hfree
            cases hfree
          · exact absurd heq (Nat.ne_of_lt hlt)
          · omega
          · exact ⟨hvoted.trans hv, hfor⟩
        · rw [h4]
          exact Core.rank_le _
      · -- everything is written
        rw [hdb]
        obtain ⟨h1, h2, h3, h4⟩ := create_core hrun.store ids me
        refine ⟨Node.create_ok hrun.store hme hids, rfl, hle.trans (.of_eq h1 h3 h2 ?_),
          fun e he T d hv => ?_, fun e he T hT => ?_⟩
        · rw [h4]
          exact Core.rank_le _
        · rw [h1, h2, h3]
          exact (hshown e (hpre.subset he)).1 T d hv
        · rw [h1]
          exact (hshown e (hpre.subset he)).2 T hT
  · cases hs

end Life

/-- **One vote per term, across crashes at any write.** Whatever the node has made visible in all
its processes: two votes of one term are for the same candidate, and its current term covers every
term it has put into a message. -/
theorem one_vote_per_term {ids : List Nat} {me : Nat} {h : List Life} (hme : me < 2 ^ 32)
    (hids : ∀ i ∈ ids, i < 2 ^ 32)
    (hr : LifeRun ids me (fun _ event => event.input.TermLt) h)
    (hterm : ∀ l ∈ h, l.node.store.currentTerm < 2 ^ 64 - 1) :
    ∀ l ∈ h,
      (∀ e ∈ l.effects, ∀ e' ∈ l.effects, ∀ T d d', e.vote = some (T, d) →
        e'.vote = some (T, d') → d = d') ∧
      ∀ e ∈ l.effects, ∀ T ∈ e.terms, T ≤ l.node.store.currentTerm := by
  have hok : ∀ l ∈ h, l.Ok := by
    refine (hr.guard hterm).forall_mem (P := Life.Ok) ?_ fun l event l' hl hok hs => ?_
    · have hnode := Node.create_ok ContextStore.empty_ok hme hids
      rw [ContextStore.empty_db] at hnode
      exact ⟨hnode, fun e he => absurd he List.not_mem_nil, fun e he => absurd he List.not_mem_nil,
        fun e he => absurd he List.not_mem_nil⟩
    · obtain ⟨es, ha⟩ := Life.adds_of_step hl.node hme hids hok.1 hok.2.1 hs
      exact hl.step ha
  exact fun l hl => ⟨(hok l hl).unique, (hok l hl).terms⟩

/-- Node 0 crashes between the two `Put`s of its vote for node 1, votes for node 2 in the same term,
crashes once the answer has left, and is asked by node 1 again. -/
theorem one_vote_per_term_two_crashes :
    ∃ h, LifeRun [0, 1, 2] 0 (fun _ event => event.input.TermLt) h ∧
      ∃ l ∈ h, (∃ e ∈ l.effects, e.vote = some (1, 2)) ∧
        3 ≤ l.effects.countP (fun e => e.terms = [1]) ∧
        ∀ e ∈ l.effects, ∀ d, e.vote = some (1, d) → d = 2 := by
  obtain ⟨h, hr, hc⟩ := Lib.System.exists_run (S := Life.system [0, 1, 2] 0)
    (fun _ event => event.input.TermLt)
    [.crash (.requestVote ⟨1, 1, 0, 0⟩) 4, .crash (.requestVote ⟨1, 2, 0, 0⟩) 3,
      .handle (.requestVote ⟨1, 1, 0, 0⟩), .handle (.requestVote ⟨1, 1, 0, 0⟩)]
    (fun h => (h.all fun l => l.node.store.currentTerm < 2 ^ 64 - 1) && h.any fun l =>
      l.effects.any (fun e => e.vote = some (1, 2)) &&
        l.effects.countP (fun e => e.terms = [1]) = 3)
    (by decide +kernel)
  simp only [Bool.and_eq_true, List.all_eq_true, List.any_eq_true, decide_eq_true_eq] at hc
  obtain ⟨hterm, l, hl, ⟨e, he, hv⟩, hcount⟩ := hc
  refine ⟨h, hr, l, hl, ⟨e, he, hv⟩, Nat.le_of_eq hcount.symm, fun e' he' d hv' => ?_⟩
  exact (one_vote_per_term (by decide) (by decide) hr hterm l hl).1 e' he' e he 1 d 2 hv' hv

end Foros
