import Foros.Raft.Proof.Pending

/-!
# Well-formed cores

`Ordered logs`: the entries stand at their ids, their terms never decrease, and they have
commands. `Core.Ok c`: the log is ordered with terms up to the node's own, and only a leader has a
pending commit, one of its own term. Every step keeps it (`Ok.step`), given that an entry-carrying
request was built from an ordered view (`FromView`).
-/

namespace Foros

structure Logs.Ordered (logs : List LogEntry) : Prop where
  indexed : Indexed logs
  sorted : logs.Pairwise fun e e' => e.term ≤ e'.term
  command : ∀ e ∈ logs, e.command.isSome

namespace Logs.Ordered

variable {logs : List LogEntry}

theorem nil : Ordered [] := ⟨indexed_nil, .nil, by simp⟩

theorem of_prefix {p : List LogEntry} (h : Ordered logs) (hp : p <+: logs) : Ordered p :=
  ⟨h.indexed.of_prefix hp, h.sorted.sublist hp.sublist, fun e he => h.command e (hp.subset he)⟩

theorem take (h : Ordered logs) (k : Nat) : Ordered (logs.take k) :=
  h.of_prefix (List.take_prefix ..)

theorem push (h : Ordered logs) {log : LogEntry} (hid : log.id = logs.length)
    (ht : ∀ e ∈ logs, e.term ≤ log.term) (hc : log.command.isSome) : Ordered (logs ++ [log]) where
  indexed := h.indexed.push hid
  sorted := List.pairwise_append.2 ⟨h.sorted, List.pairwise_singleton .., by simpa using ht⟩
  command e he := by
    rcases List.mem_append.1 he with he | he
    · exact h.command e he
    · rw [List.mem_singleton.1 he]
      exact hc

theorem term_le (h : Ordered logs) {i j : Nat} {e e' : LogEntry} (hij : i ≤ j)
    (hi : logs[i]? = some e) (hj : logs[j]? = some e') : e.term ≤ e'.term := by
  obtain ⟨hi', rfl⟩ := List.getElem?_eq_some_iff.1 hi
  obtain ⟨hj', rfl⟩ := List.getElem?_eq_some_iff.1 hj
  rcases Nat.lt_or_eq_of_le hij with hlt | rfl
  · exact List.pairwise_iff_getElem.1 h.sorted i j hi' hj' hlt
  · exact Nat.le_refl _

/-- The entries below `k` are no younger than the one before it. -/
theorem take_le (h : Ordered logs) {k : Nat} {e : LogEntry} (hk : logs[k]? = some e) :
    ∀ x ∈ logs.take (k + 1), x.term ≤ e.term := by
  intro x hx
  obtain ⟨i, hi⟩ := List.mem_iff_getElem?.1 hx
  rw [List.getElem?_take] at hi
  split at hi
  · exact h.term_le (by omega) hi hk
  · cases hi

end Logs.Ordered

/-! ## Requests -/

/-- The request carries nothing, or an entry of the view `V` with its predecessor. -/
def FromView (V : List LogEntry) (request : AppendEntriesRequest) : Prop :=
  (request.entries = [] ∧ request.leaderCommit = 0) ∨
    (V[request.leaderCommit]? = some (Logs.entry request) ∧
      (request.leaderCommit ≠ 0 → request.prevLogIndex = request.leaderCommit - 1 ∧
        ∃ e, V[request.leaderCommit - 1]? = some e ∧ e.term = request.prevLogTerm))

/-- The entry of a request that carries one. -/
theorem FromView.entry {V : List LogEntry} {request : AppendEntriesRequest}
    (h : FromView V request) (he : request.entries ≠ []) :
    V[request.leaderCommit]? = some (Logs.entry request) ∧
      (request.leaderCommit ≠ 0 → request.prevLogIndex = request.leaderCommit - 1 ∧
        ∃ e, V[request.leaderCommit - 1]? = some e ∧ e.term = request.prevLogTerm) := by
  rcases h with ⟨h, -⟩ | h
  · exact absurd h he
  · exact h

/-- The same term at the same place means the same entries up to there. -/
def Logs.Agree (p q : List LogEntry) : Prop :=
  ∀ (k : Nat) (e e' : LogEntry), p[k]? = some e → q[k]? = some e' → e.term = e'.term →
    p.take (k + 1) = q.take (k + 1)

section

variable {logs V : List LogEntry} {request : AppendEntriesRequest}

/-- A log that passes the check on the predecessor has the view's entries below. -/
theorem FromView.take_eq (h : FromView V request) (hagree : Logs.Agree logs V)
    (hm : Logs.Matches request logs) :
    logs.take request.leaderCommit = V.take request.leaderCommit := by
  obtain ⟨hne, hprev⟩ := hm
  obtain ⟨-, hpred⟩ := h.entry hne
  rcases Nat.eq_zero_or_pos request.leaderCommit with h0 | h0
  · rw [h0, List.take_zero, List.take_zero]
  · obtain ⟨hidx, e, he, hterm⟩ := hpred (by omega)
    obtain ⟨log, hlog, hlt⟩ : ∃ log, logs[request.leaderCommit - 1]? = some log ∧
        log.term = request.prevLogTerm := by
      rcases hprev with hz | ⟨log, hlog, hlt⟩
      · omega
      · exact ⟨log, hidx ▸ hlog, hlt⟩
    have := hagree _ _ _ hlog he (hlt.trans hterm.symm)
    rwa [Nat.sub_add_cancel h0] at this

/-- Its entry put after them is the view up to the entry. -/
theorem FromView.put_eq (h : FromView V request) (hagree : Logs.Agree logs V)
    (hm : Logs.Matches request logs) :
    logs.take request.leaderCommit ++ [Logs.entry request] =
      V.take (request.leaderCommit + 1) := by
  have hent := (h.entry hm.1).1
  rw [h.take_eq hagree hm, List.take_add_one, hent]
  rfl

/-- A request leaves a prefix of the log or of the view it was built from. -/
theorem FromView.append_prefix (h : FromView V request) (hi : Logs.Indexed logs)
    (hagree : Logs.Agree logs V) :
    (Logs.append request logs).2 <+: logs ∨ (Logs.append request logs).2 <+: V := by
  have ho := Logs.append_outcome hi request
  generalize Logs.append request logs = r at ho ⊢
  generalize Logs.appendNotices request logs = es at ho
  cases ho with
  | ignored => exact .inl (List.prefix_refl _)
  | rolledBack _ => exact .inl (List.take_prefix ..)
  | confirmed _ _ => exact .inl (List.prefix_refl _)
  | replaced hm _ _ =>
    right
    change logs.take request.leaderCommit ++ [Logs.entry request] <+: V
    rw [h.put_eq hagree hm]
    exact List.take_prefix ..
  | pushed hm he =>
    right
    have hput := h.put_eq hagree hm
    rw [he, List.take_length] at hput
    change logs ++ [Logs.entry request] <+: V
    rw [hput]
    exact List.take_prefix ..

end

/-- A view a node of term `t` can send from. -/
structure ViewOk (t : Nat) (V : List LogEntry) : Prop where
  ordered : Logs.Ordered V
  term_le : ∀ e ∈ V, e.term ≤ t

theorem ViewOk.mono {t t' : Nat} {V : List LogEntry} (h : ViewOk t V) (ht : t ≤ t') :
    ViewOk t' V := ⟨h.ordered, fun e he => Nat.le_trans (h.term_le e he) ht⟩

theorem ViewOk.of_prefix {t : Nat} {p V : List LogEntry} (h : ViewOk t V) (hp : p <+: V) :
    ViewOk t p := ⟨h.ordered.of_prefix hp, fun e he => h.term_le e (hp.subset he)⟩

theorem ViewOk.push {t : Nat} {V : List LogEntry} (h : ViewOk t V) {log : LogEntry}
    (hid : log.id = V.length) (ht : log.term = t) (hc : log.command.isSome) :
    ViewOk t (V ++ [log]) := by
  refine ⟨h.ordered.push hid (fun e he => by rw [ht]; exact h.term_le e he) hc, fun e he => ?_⟩
  rcases List.mem_append.1 he with he | he
  · exact h.term_le e he
  · rw [List.mem_singleton.1 he, ht]

/-- What a request built from a good view leaves of a good log. -/
theorem ViewOk.append {t t' : Nat} {logs V : List LogEntry} {request : AppendEntriesRequest}
    (h : ViewOk t logs) (hV : Logs.Ordered V) (hreq : FromView V request) (ht : t ≤ t')
    (hle : request.term ≤ t') : ViewOk t' (Logs.append request logs).2 := by
  have hput : ∀ k ≤ logs.length, k = request.leaderCommit → Logs.Matches request logs →
      ViewOk t' (logs.take k ++ [Logs.entry request]) := by
    rintro k hk rfl ⟨hne, hprev⟩
    obtain ⟨hent, hpred⟩ := hreq.entry hne
    have hbelow : ∀ e ∈ logs.take request.leaderCommit, e.term ≤ request.term := by
      intro e he
      rcases Nat.eq_zero_or_pos request.leaderCommit with h0 | h0
      · simp [h0] at he
      · -- the predecessor is the youngest entry below, and the view orders it before the entry
        obtain ⟨hidx, e', he', hterm⟩ := hpred (by omega)
        rcases hprev with hz | ⟨log, hlog, hlt⟩
        · omega
        rw [hidx] at hlog
        have hk' : request.leaderCommit - 1 + 1 = request.leaderCommit := by omega
        have h1 := h.ordered.take_le hlog e (by rwa [hk'])
        have h2 := hV.term_le (Nat.sub_le _ 1) he' hent
        rw [hlt, ← hterm] at h1
        exact Nat.le_trans h1 h2
    refine ⟨(h.ordered.take _).push ?_ hbelow rfl, fun e he => ?_⟩
    · simp only [Logs.entry, List.length_take]
      omega
    · rcases List.mem_append.1 he with he | he
      · exact Nat.le_trans (hbelow e he) hle
      · rw [List.mem_singleton.1 he]
        exact hle
  have ho := Logs.append_outcome h.ordered.indexed request
  generalize Logs.append request logs = r at ho ⊢
  generalize Logs.appendNotices request logs = es at ho
  cases ho with
  | ignored => exact h.mono ht
  | rolledBack _ => exact (h.of_prefix (List.take_prefix ..)).mono ht
  | confirmed _ _ => exact h.mono ht
  | replaced hm _ hlt => exact hput _ (Nat.le_of_lt hlt) rfl hm
  | pushed hm he =>
    have := hput logs.length (Nat.le_refl _) he.symm hm
    rwa [List.take_length] at this

namespace Core

/-- What holds of the core of a node between callbacks. -/
structure Ok (c : Core) : Prop where
  logs : ViewOk c.term c.logs
  pending : ∀ commit, c.pending = some commit →
    c.state = .leader ∧ commit.log.term = c.term ∧ commit.log.command.isSome
  term_pos : c.state = .candidate ∨ c.state = .leader → 0 < c.term

variable {c : Core}

theorem Ok.pending_none (h : c.Ok) (hs : c.state ≠ .leader) : c.pending = none := by
  exact Held.none h.pending hs

theorem Ok.view (h : c.Ok) : ViewOk c.term c.view := by
  unfold Core.view
  cases hc : c.current with
  | none => simpa using h.logs
  | some commit =>
    obtain ⟨hp, hid⟩ := current_eq_some.1 hc
    obtain ⟨-, ht, hcmd⟩ := h.pending commit hp
    exact h.logs.push hid ht hcmd

theorem view_of_none (h : c.pending = none) : c.view = c.logs := by
  unfold Core.view
  rw [current_of_none h]
  simp

/-- A broadcast sends from the view. -/
theorem fromView_appendRequest (hi : Logs.Indexed c.view) (hcmd : ∀ e ∈ c.view, e.command.isSome)
    (node : OtherNode) : FromView c.view (c.appendRequest node) := by
  cases hv : c.view[node.nextIndex]? with
  | none =>
    have he : c.entryRequest node.nextIndex = { term := c.term, leaderId := c.nodeId } := by
      simp only [entryRequest, hv]
    refine .inl ?_
    unfold appendRequest
    split
    · simp [he]
    · split <;> simp [he]
  | some e =>
    have hid : e.id = node.nextIndex := hi _ _ hv
    have hsome : e.command = some (e.command.getD []) := by
      have := hcmd e (List.mem_of_getElem? hv)
      cases hc : e.command with
      | none => simp [hc] at this
      | some data => rfl
    have he : c.entryRequest node.nextIndex =
        { term := e.term
          leaderId := c.nodeId
          entries := e.command.getD []
          leaderCommit := e.id } := by
      simp only [entryRequest, hv]
    have hlog : some (⟨e.id, e.term, some (e.command.getD [])⟩ : LogEntry) = some e := by
      rw [← hsome]
    have hent : c.view[e.id]? = some ⟨e.id, e.term, some (e.command.getD [])⟩ := by
      rw [← hsome]
      change c.view[e.id]? = some e
      rw [hid]
      exact hv
    refine .inr ?_
    by_cases h0 : node.nextIndex = 0
    · have hr : c.appendRequest node = c.entryRequest node.nextIndex := if_pos h0
      rw [hr, he]
      exact ⟨hent, fun hne => absurd (hid.trans h0) hne⟩
    · have hlt : node.nextIndex - 1 < c.view.length :=
        Nat.lt_of_le_of_lt (Nat.sub_le _ 1) (List.getElem?_eq_some_iff.1 hv).1
      obtain ⟨e', he'⟩ : ∃ e', c.view[node.nextIndex - 1]? = some e' :=
        ⟨_, List.getElem?_eq_getElem hlt⟩
      have hid' : e'.id = node.nextIndex - 1 := hi _ _ he'
      have hr : c.appendRequest node = { c.entryRequest node.nextIndex with
          prevLogIndex := e'.id
          prevLogTerm := e'.term } := by
        unfold appendRequest
        rw [if_neg h0, he']
      rw [hr, he]
      refine ⟨hent, fun _ => ⟨?_, e', ?_, rfl⟩⟩
      · change e'.id = e.id - 1
        omega
      · change c.view[e.id - 1]? = some e'
        rw [hid]
        exact he'

theorem Ok.fromView (h : c.Ok) (node : OtherNode) : FromView c.view (c.appendRequest node) :=
  fromView_appendRequest h.view.ordered.indexed h.view.ordered.command node

theorem Ok.appendRequest_term_le (h : c.Ok) (node : OtherNode) :
    (c.appendRequest node).term ≤ c.term := by
  obtain ⟨i, t, hr⟩ := c.appendRequest_eq node
  rw [hr]
  unfold entryRequest
  split
  · exact h.view.term_le _ (List.mem_of_getElem? ‹_›)
  · exact Nat.le_refl _

theorem appendRequest_leaderId (c : Core) (node : OtherNode) :
    (c.appendRequest node).leaderId = c.nodeId := by
  obtain ⟨i, t, hr⟩ := c.appendRequest_eq node
  rw [hr]
  unfold entryRequest
  split <;> rfl

/-! ## Steps -/

theorem Ok.down (h : c.Ok) : c.down.Ok := by
  refine ⟨?_, Held.down h.pending, fun hs => ?_⟩
  · rw [down_logs, down_term]
    exact h.logs
  · rcases hs with hs | hs
    · exact absurd hs c.down_state.1
    · exact absurd hs c.down_state.2

/-- A larger term, with nothing pending. -/
theorem Ok.observe (h : c.Ok) (t : Nat) : (c.observe t).Ok := by
  refine ⟨?_, Held.observe h.pending t, fun hs => ?_⟩
  · rw [observe_logs, observe_term]
    exact h.logs.mono (Nat.le_max_left _ _)
  · rcases Nat.lt_or_ge c.term t with hlt | hge
    · rw [observe_term]
      omega
    · rw [observe_of_le hge] at hs ⊢
      exact h.term_pos hs

theorem Ok.discover (h : c.Ok) (request : AppendEntriesRequest) : (c.discover request).Ok := by
  unfold Core.discover
  split
  · exact h
  · exact (h.observe _).down

theorem term_le_discover (c : Core) (request : AppendEntriesRequest) :
    c.term ≤ (c.discover request).term ∧ request.term ≤ (c.discover request).term := by
  unfold Core.discover
  split
  · exact ⟨Nat.le_refl _, Nat.le_of_lt ‹_›⟩
  · rw [down_term, observe_term]
    exact ⟨Nat.le_max_left _ _, Nat.le_max_right _ _⟩

theorem Ok.elect (h : c.Ok) : c.elect.Ok := by
  rcases Nat.lt_or_ge c.voteReceived c.majority with hlt | hge
  · rw [elect_of_lt hlt]
    exact h
  · rw [elect_of_le hge]
    refine ⟨h.logs, ?_, fun hs => ?_⟩
    · have hheld := Held.elect h.pending
      rwa [elect_of_le hge] at hheld
    · by_cases hc : c.state = .candidate
      · exact h.term_pos (.inl hc)
      · change (if c.state = .candidate then StateType.leader else c.state) = _ ∨
          (if c.state = .candidate then StateType.leader else c.state) = _ at hs
        rw [if_neg hc] at hs
        exact h.term_pos hs

theorem Ok.campaign (h : c.Ok) (hs : c.state = .follower ∨ c.state = .candidate) :
    c.campaign.Ok := by
  have hp : c.pending = none := h.pending_none (by rcases hs with hs | hs <;> simp [hs])
  exact Ok.elect ⟨h.logs.mono c.term_le_nextTerm, Held.of_none hp, fun _ => c.nextTerm_pos⟩

theorem Ok.complete (h : c.Ok) {commit : PendingCommit} (hc : c.pending = some commit) :
    (c.complete commit.log).Ok := by
  obtain ⟨hl, ht, hcmd⟩ := h.pending commit hc
  refine ⟨?_, fun _ hn => (by cases hn), h.term_pos⟩
  change ViewOk c.term (Logs.push commit.log c.logs).2
  rcases Logs.push_cases commit.log c.logs with ⟨data, hd, hid⟩ | hr
  · rw [Logs.push_accepted hd hid]
    exact h.logs.push hid ht hcmd
  · rw [Logs.push_rejected hr]
    exact h.logs

theorem Ok.count (h : c.Ok) (id commitIndex term : Nat) (success : Bool) :
    (c.count id commitIndex term success).Ok := by
  unfold Core.count
  cases hm : c.matching commitIndex term with
  | none => exact h
  | some commit =>
    have hp := (matching_eq_some.1 hm).1
    simp only
    split
    · exact h.complete hp
    · refine ⟨h.logs, fun commit' hc => ?_, h.term_pos⟩
      cases hc
      exact h.pending commit hp

theorem Ok.commitCommand (h : c.Ok) (command : Command) (promise : Nat) :
    (c.commitCommand (some command) promise).Ok := by
  unfold Core.commitCommand
  split
  · exact h
  rename_i hl
  have hl' : c.state = .leader := not_not.1 hl
  split
  · refine ⟨?_, h.pending, h.term_pos⟩
    change ViewOk c.term (Logs.push (c.proposal (some command)) c.logs).2
    rw [Logs.push_accepted (l := c.proposal (some command)) rfl rfl]
    exact h.logs.push rfl rfl rfl
  split
  · exact h
  · exact ⟨h.logs, fun commit hc => by cases hc; exact ⟨hl', rfl, rfl⟩, h.term_pos⟩

end Core

/-- What is known of an input: commands are not null, and a request was built from an ordered
view. -/
def Input.Ok : Input → Prop
  | .commitCommand command => command.isSome
  | .appendEntries request => ∃ V, Logs.Ordered V ∧ FromView V request
  | _ => True

/-- **Every step keeps a core well formed.** -/
theorem Core.Ok.step {c c' : Core} {input : Input} {es : List Effect} (h : c.Ok)
    (hin : input.Ok) (hs : c.Step input c' es) : c'.Ok := by
  cases hs with
  | idleElection => exact h
  | campaign hst => exact h.campaign hst
  | idleBroadcast => exact h
  | broadcast hl =>
    exact ⟨h.logs, fun commit hc => h.pending commit (Core.current_eq_some.1 hc).1, h.term_pos⟩
  | commitCommand command promise =>
    cases command with
    | none => cases hin
    | some command => exact h.commitCommand command promise
  | appendEntries request =>
    obtain ⟨V, hV, hreq⟩ := hin
    unfold Core.appendEntries
    split
    · exact h
    · obtain ⟨h1, h2, h3⟩ := h.discover request
      obtain ⟨ht, hle⟩ := c.term_le_discover request
      exact ⟨h.logs.append hV hreq ht hle, h2, h3⟩
  | requestVote request =>
    obtain ⟨h1, h2, h3⟩ := h.observe request.term
    rcases c.requestVote_cases request with he | he | ⟨-, -, he⟩ <;> rw [he]
    · exact h
    · exact ⟨h1, h2, h3⟩
    · exact ⟨h1, h2, h3⟩
  | appendEntriesResponse id request response =>
    have hpeer : (c.updatePeer id request response).Ok := ⟨h.logs, h.pending, h.term_pos⟩
    exact (hpeer.observe _).count _ _ _ _
  | requestVoteResponse response =>
    rcases c.requestVoteResponse_cases response with he | he | ⟨-, he⟩ <;> rw [he]
    · exact h
    · exact h.observe _
    · exact Core.Ok.elect ⟨h.logs, h.pending, h.term_pos⟩

end Foros
