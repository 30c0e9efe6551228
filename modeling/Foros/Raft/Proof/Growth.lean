import Foros.Raft.Proof.Votes

/-!
# What a step does to the log

`Settled c`: a pending commit is for the next index. A leader that handles an entry of an older
term can break this (`Node.Deposed`); where it does not, a step keeps the log, proposes an entry,
commits one, or appends what a request carries after stepping down (`Step.growth`). So the view of
a leader only grows within its term (`Growth.view_le`).
-/

namespace Foros

/-- A leader handles an entry of an older term. -/
def Node.Deposed (n : Node) : Input → Prop
  | .appendEntries request =>
    n.state = .leader ∧ request.entries ≠ [] ∧ request.term < n.store.currentTerm
  | _ => False

instance (n : Node) (input : Input) : Decidable (n.Deposed input) := by
  refine Input.casesOn input ?_ ?_ ?_ ?_ ?_ ?_ ?_ <;> intros <;> dsimp only [Node.Deposed] <;>
    infer_instance

namespace Core

/-- The pending commit is for the next index, and waits for peers. -/
def Settled (c : Core) : Prop :=
  ∀ commit, c.pending = some commit → commit.log.id = c.logs.length ∧ 1 < c.clusterSize

/-- What becomes of the log. `Q` holds of the request behind an entry that is appended. -/
inductive Growth (Q : AppendEntriesRequest → Prop) (c c' : Core) : Prop
  | keep : c'.logs = c.logs → (c'.view = c.view ∨ c'.view = c.logs ∧ c'.state ≠ .leader) →
      Growth Q c c'
  | propose {log : LogEntry} : c.state = .leader → c'.state = .leader → c'.term = c.term →
      log.term = c.term → c.view = c.logs → c'.logs = c.logs → c'.view = c.logs ++ [log] →
      Growth Q c c'
  | commit {log : LogEntry} : c.state = .leader → c'.state = .leader → c'.term = c.term →
      log.term = c.term → c'.logs = c.logs ++ [log] → c'.view = c'.logs →
      (c.view = c.logs ∨ c.view = c'.logs) → Growth Q c c'
  | append {request : AppendEntriesRequest} : Q request → request.entries ≠ [] →
      c'.state ≠ .leader → (request.term < c.term ∨ c'.state.rank = 2) →
      request.term ≤ c'.term → c'.logs = (Logs.append request c.logs).2 → c'.view = c'.logs →
      Growth Q c c'

variable {c c' : Core} {input : Input} {es : List Effect} {Q Q' : AppendEntriesRequest → Prop}

theorem Growth.mono (h : Growth Q c c') (hQ : ∀ request, Q request → Q' request) :
    Growth Q' c c' := by
  cases h with
  | keep h1 h2 => exact .keep h1 h2
  | propose h1 h2 h3 h4 h5 h6 h7 => exact .propose h1 h2 h3 h4 h5 h6 h7
  | commit h1 h2 h3 h4 h5 h6 h7 => exact .commit h1 h2 h3 h4 h5 h6 h7
  | append h1 h2 h3 h4 h5 h6 h7 => exact .append (hQ _ h1) h2 h3 h4 h5 h6 h7

/-- The peers do not matter. -/
theorem Growth.of_peers {ps : List OtherNode} (h : Growth Q { c with peers := ps } c') :
    Growth Q c c' := by
  cases h with
  | keep h1 h2 => exact .keep h1 h2
  | propose h1 h2 h3 h4 h5 h6 h7 => exact .propose h1 h2 h3 h4 h5 h6 h7
  | commit h1 h2 h3 h4 h5 h6 h7 => exact .commit h1 h2 h3 h4 h5 h6 h7
  | append h1 h2 h3 h4 h5 h6 h7 => exact .append h1 h2 h3 h4 h5 h6 h7

theorem Growth.refl (c : Core) : Growth Q c c := .keep rfl (.inl rfl)

/-- **The view of a leader grows.** -/
theorem Growth.view_le (h : Growth Q c c') (hl' : c'.state = .leader) :
    c.view <+: c'.view := by
  cases h with
  | keep _ hv =>
    rcases hv with hv | ⟨-, hne⟩
    · rw [hv]
    · exact absurd hl' hne
  | propose _ _ _ _ hv _ hv' =>
    rw [hv, hv']
    exact List.prefix_append ..
  | commit _ _ _ _ hlogs hv' hv =>
    rw [hv']
    rcases hv with hv | hv
    · rw [hv, hlogs]
      exact List.prefix_append ..
    · rw [hv]
  | append _ _ hne _ _ _ _ => exact absurd hl' hne

/-! ## Views -/

theorem logs_prefix_view (c : Core) : c.logs <+: c.view := List.prefix_append ..

theorem Settled.current (h : c.Settled) : c.current = c.pending := by
  cases hp : c.pending with
  | none => exact current_of_none hp
  | some commit => exact current_of_eq hp (h commit hp).1

theorem Settled.view_some (h : c.Settled) {commit : PendingCommit} (hp : c.pending = some commit) :
    c.view = c.logs ++ [commit.log] := by
  unfold view
  rw [h.current, hp]
  rfl

theorem settled_of_none (h : c.pending = none) : c.Settled := by
  intro commit hc
  rw [h] at hc
  cases hc

theorem view_congr (hl : c'.logs = c.logs) (hp : c'.pending = c.pending) : c'.view = c.view := by
  unfold view current
  rw [hl, hp]

/-! ## Moves that leave the log -/

/-- The log stays, and the pending commit stays or is cancelled. -/
structure LeavesLog (c c' : Core) : Prop where
  logs : c'.logs = c.logs
  clusterSize : c'.clusterSize = c.clusterSize
  pending : c'.pending = c.pending ∨ c'.pending = none ∧ c'.state ≠ .leader

theorem LeavesLog.growth (h : LeavesLog c c') : Growth Q c c' := by
  refine .keep h.logs ?_
  rcases h.pending with hp | ⟨hp, hne⟩
  · exact .inl (view_congr h.logs hp)
  · refine .inr ⟨?_, hne⟩
    rw [view_of_none hp, h.logs]

theorem LeavesLog.settled (h : LeavesLog c c') (hs : c.Settled) : c'.Settled := by
  rcases h.pending with hp | ⟨hp, -⟩
  · intro commit hc
    rw [h.logs, h.clusterSize]
    exact hs commit (hp ▸ hc)
  · exact settled_of_none hp

theorem leavesLog_down (c : Core) : LeavesLog c c.down := by
  obtain ⟨st, p, he, -, hl, hp⟩ := c.down_eq
  rw [he]
  refine ⟨rfl, rfl, ?_⟩
  rcases hp with rfl | ⟨rfl, -⟩
  · exact .inr ⟨rfl, hl⟩
  · exact .inl rfl

theorem leavesLog_observe (c : Core) (t : Nat) : LeavesLog c (c.observe t) := by
  rcases Nat.lt_or_ge c.term t with hlt | hge
  · rw [observe_of_lt hlt]
    obtain ⟨h1, h2, h3⟩ := leavesLog_down ({ c with term := t }.resetVote)
    exact ⟨h1, h2, h3⟩
  · rw [observe_of_le hge]
    exact ⟨rfl, rfl, .inl rfl⟩

theorem leavesLog_discover (c : Core) (t : Nat) : LeavesLog c (c.observe t).down := by
  obtain ⟨h1, h2, h3⟩ := leavesLog_observe c t
  obtain ⟨h4, h5, h6⟩ := leavesLog_down (c.observe t)
  refine ⟨h4.trans h1, h5.trans h2, ?_⟩
  have hne := (c.observe t).down_state.2
  rcases h6 with h6 | h6
  · rcases h3 with h3 | h3
    · exact .inl (h6.trans h3)
    · exact .inr ⟨h6.trans h3.1, hne⟩
  · exact .inr h6

theorem leavesLog_elect (c : Core) : LeavesLog c c.elect := by
  obtain ⟨ps, st, he, -, -⟩ := c.elect_eq
  rw [he]
  exact ⟨rfl, rfl, .inl rfl⟩

/-! ## Steps -/

/-- A proposal of a leader. -/
theorem growth_commitCommand (hs : c.Settled) (command : Command) (promise : Nat) :
    Growth Q c (c.commitCommand (some command) promise) ∧
      (c.commitCommand (some command) promise).Settled := by
  unfold commitCommand
  by_cases hl : c.state = .leader
  · rw [if_neg (not_not.2 hl)]
    by_cases hn : c.clusterSize ≤ 1
    · -- a cluster of one: the entry is pushed at once, and nothing is ever pending
      have hp : c.pending = none := by
        cases hp : c.pending with
        | none => rfl
        | some commit =>
          have := (hs commit hp).2
          omega
      rw [if_pos hn, Logs.push_accepted (l := c.proposal (some command)) rfl rfl]
      refine ⟨.commit hl hl rfl rfl rfl ?_ (.inl (view_of_none hp)), settled_of_none hp⟩
      exact view_of_none hp
    · rw [if_neg hn]
      cases hp : c.pending with
      | some commit =>
        rw [if_pos (by rw [hs.current, hp]; rfl)]
        exact ⟨.refl c, hs⟩
      | none =>
        rw [if_neg (by rw [hs.current, hp]; decide)]
        have hset : Settled { c with
            pending := some ⟨c.proposal (some command), promise, fun _ => none⟩ } := by
          intro commit hc
          cases hc
          exact ⟨rfl, by change 1 < c.clusterSize; omega⟩
        exact ⟨.propose hl hl rfl rfl (view_of_none hp) rfl (hset.view_some rfl), hset⟩
  · rw [if_pos hl]
    exact ⟨.refl c, hs⟩

/-- An answer to the leader. -/
theorem growth_count (hok : c.Ok) (hs : c.Settled) (id commitIndex term : Nat) (success : Bool) :
    Growth Q c (c.count id commitIndex term success) ∧
      (c.count id commitIndex term success).Settled := by
  unfold count
  cases hm : c.matching commitIndex term with
  | none => exact ⟨.refl c, hs⟩
  | some commit =>
    have hp := (matching_eq_some.1 hm).1
    obtain ⟨hl, hterm, hcmd⟩ := hok.pending commit hp
    obtain ⟨hid, hn⟩ := hs commit hp
    simp only
    split
    · obtain ⟨data, hd⟩ := Option.isSome_iff_exists.1 hcmd
      have hlogs : (c.complete commit.log).logs = c.logs ++ [commit.log] := by
        unfold complete
        rw [Logs.push_accepted hd hid]
      refine ⟨.commit hl hl rfl hterm hlogs (view_of_none rfl) (.inr ?_), settled_of_none rfl⟩
      rw [hs.view_some hp, hlogs]
    · have hset : Settled { c with pending := some { commit with
          resultMap := Function.update commit.resultMap id (some success) } } := by
        intro commit' hc
        cases hc
        exact ⟨hid, hn⟩
      refine ⟨.keep rfl (.inl ?_), hset⟩
      rw [hset.view_some rfl, hs.view_some hp]

/-- A request to append. -/
theorem growth_appendEntries (hok : c.Ok) (hs : c.Settled) {request : AppendEntriesRequest}
    (hQ : Q request)
    (hd : ¬ (c.state = .leader ∧ request.entries ≠ [] ∧ request.term < c.term)) :
    Growth Q c (c.appendEntries request).2 ∧ (c.appendEntries request).2.Settled := by
  by_cases hent : request.entries = []
  · have hsame : (Logs.append request c.logs).2 = c.logs := by simp [Logs.append, hent]
    have hle : LeavesLog c (c.appendEntries request).2 := by
      rcases c.appendEntries_cases request with he | ⟨-, he⟩ | ⟨-, he⟩ <;> rw [he]
      · exact ⟨rfl, rfl, .inl rfl⟩
      · exact ⟨hsame, rfl, .inl rfl⟩
      · obtain ⟨h1, h2, h3⟩ := leavesLog_discover c request.term
        exact ⟨hsame, h2, h3⟩
    exact ⟨hle.growth, hle.settled hs⟩
  · rcases c.appendEntries_cases request with he | ⟨hlt, he⟩ | ⟨-, he⟩ <;> rw [he]
    · exact ⟨.refl c, hs⟩
    · have hne : c.state ≠ .leader := fun hl => hd ⟨hl, hent, hlt⟩
      have hp := hok.pending_none hne
      refine ⟨.append hQ hent hne (.inl hlt) ?_ rfl (view_of_none hp), settled_of_none hp⟩
      exact Nat.le_of_lt hlt
    · obtain ⟨h1, h2⟩ := (c.observe request.term).down_state
      have hp : (c.observe request.term).down.pending = none :=
        (hok.observe request.term).down.pending_none h2
      refine ⟨.append hQ hent h2 (.inr (rank_of_down h1 h2)) ?_ rfl (view_of_none hp),
        settled_of_none hp⟩
      change request.term ≤ (c.observe request.term).down.term
      rw [down_term, observe_term]
      exact Nat.le_max_right _ _

/-- **What a step does to the log**, unless a leader handles an entry of an older term. -/
theorem Step.growth (h : c.Step input c' es) (hok : c.Ok) (hin : input.Ok) (hs : c.Settled)
    (hd : ∀ request, input = .appendEntries request →
      ¬ (c.state = .leader ∧ request.entries ≠ [] ∧ request.term < c.term)) :
    Growth (fun request => input = .appendEntries request) c c' ∧ c'.Settled := by
  have hquiet : ∀ {c'}, LeavesLog c c' →
      Growth (fun request => input = .appendEntries request) c c' ∧ c'.Settled :=
    fun hle => ⟨hle.growth, hle.settled hs⟩
  cases h with
  | idleElection => exact ⟨.refl c, hs⟩
  | campaign _ =>
    obtain ⟨h1, h2, h3⟩ := leavesLog_elect { c with
      term := c.nextTerm, votedFor := c.nodeId, voted := true, voteReceived := 1
      state := .candidate }
    exact hquiet ⟨h1, h2, h3⟩
  | idleBroadcast => exact ⟨.refl c, hs⟩
  | broadcast _ => exact hquiet ⟨rfl, rfl, .inl hs.current⟩
  | commitCommand command promise =>
    cases command with
    | none => cases hin
    | some command => exact growth_commitCommand hs command promise
  | appendEntries request => exact growth_appendEntries hok hs rfl (hd request rfl)
  | requestVote request =>
    obtain ⟨h1, h2, h3⟩ := leavesLog_observe c request.term
    rcases c.requestVote_cases request with he | he | ⟨-, -, he⟩ <;> rw [he]
    · exact ⟨.refl c, hs⟩
    · exact hquiet ⟨h1, h2, h3⟩
    · exact hquiet ⟨h1, h2, h3⟩
  | appendEntriesResponse id request response =>
    have hpeer : (c.updatePeer id request response).Ok := ⟨hok.logs, hok.pending, hok.term_pos⟩
    have hset : (c.updatePeer id request response).Settled := hs
    unfold Core.appendEntriesResponse
    rcases Nat.lt_or_ge c.term response.term with hlt | hge
    · -- a newer term: the commit is cancelled before the answer is counted
      have hp : ((c.updatePeer id request response).observe response.term).pending = none := by
        apply (hpeer.observe _).pending_none
        intro hl
        have := (observe_leader hl).2
        rw [observe_term, updatePeer_term] at this
        omega
      have hm : ((c.updatePeer id request response).observe response.term).matching
          request.leaderCommit response.term = none := by
        unfold matching
        rw [hp]
        rfl
      obtain ⟨h1, h2, h3⟩ := leavesLog_observe (c.updatePeer id request response) response.term
      unfold count
      rw [hm]
      exact hquiet ⟨h1, h2, h3⟩
    · rw [observe_of_le (c := c.updatePeer id request response) hge]
      obtain ⟨hg, hs'⟩ := growth_count (Q := fun r => Input.appendEntriesResponse id request
        response = .appendEntries r) hpeer hset id request.leaderCommit response.term
        response.success
      exact ⟨hg.of_peers, hs'⟩
  | requestVoteResponse response =>
    rcases c.requestVoteResponse_cases response with he | he | ⟨-, he⟩ <;> rw [he]
    · exact ⟨.refl c, hs⟩
    · exact hquiet (leavesLog_observe c _)
    · obtain ⟨h1, h2, h3⟩ :=
        leavesLog_elect { c with voteReceived := (c.voteReceived + 1) % 2 ^ 32 }
      exact hquiet ⟨h1, h2, h3⟩

end Core

end Foros
