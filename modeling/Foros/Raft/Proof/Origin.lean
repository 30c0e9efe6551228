import Foros.Raft.Proof.WellFormed

/-!
# Where the entries of a step come from

Every entry that a node has in its log or pending after a step, and every entry that a step
announces as committed, was in the log or pending before, is carried by the request the step
handles, or is the proposal of a leader whose user commits a command (`Origin`). No step makes an
entry up.
-/

namespace Foros.Core

variable {c c' : Core} {input : Input} {es : List Effect}

/-- Where the entry `e` of a step from `c` to `c'` comes from. -/
inductive Origin (c : Core) (input : Input) (c' : Core) (e : LogEntry) : Prop
  | log : e ∈ c.logs → Origin c input c' e
  | pending {commit : PendingCommit} : c.pending = some commit → commit.log = e →
      Origin c input c' e
  | request {request : AppendEntriesRequest} : input = .appendEntries request →
      request.entries ≠ [] → Logs.entry request = e → Origin c input c' e
  | proposal {command : Option Command} : input = .commitCommand command → c.state = .leader →
      c.proposal command = e → e ∈ c'.view → Origin c input c' e

theorem pending_of_observe {t : Nat} {commit : PendingCommit}
    (h : (c.observe t).pending = some commit) : c.pending = some commit := by
  rcases c.observe_pending t with hn | hsame
  · rw [hn] at h
    cases h
  · rwa [hsame] at h

theorem pending_of_down {commit : PendingCommit} (h : c.down.pending = some commit) :
    c.pending = some commit := by
  rcases c.down_pending with hn | ⟨hsame, -⟩
  · rw [hn] at h
    cases h
  · rwa [hsame] at h

theorem mem_push {log e : LogEntry} {logs : List LogEntry} (he : e ∈ (Logs.push log logs).2) :
    e ∈ logs ∨ e = log := by
  unfold Logs.push at he
  split at he
  · simpa using he
  · exact .inl he

/-- A request that carries nothing changes nothing. -/
theorem append_nil {request : AppendEntriesRequest} (h : request.entries = [])
    (logs : List LogEntry) : Logs.append request logs = (false, logs) := by
  simp [Logs.append, h]

/-- The proposal of a cluster of one is pushed at once. -/
theorem proposal_mem_view {command : Command} (h : c.clusterSize ≤ 1) (hl : c.state = .leader)
    (promise : Nat) :
    c.proposal (some command) ∈ (c.commitCommand (some command) promise).view := by
  apply List.mem_append_left
  unfold commitCommand
  rw [if_neg (not_not.2 hl), if_pos h, Logs.push_accepted (l := c.proposal (some command)) rfl rfl]
  simp

/-- A proposal that waits for its majority is the end of the view. -/
theorem proposal_mem_view_of_pending {command : Option Command} {promise : Nat}
    {resultMap : Nat → Option Bool}
    (h : c'.pending = some ⟨c.proposal command, promise, resultMap⟩) (hlogs : c'.logs = c.logs) :
    c.proposal command ∈ c'.view := by
  have hcur : c'.current = some ⟨c.proposal command, promise, resultMap⟩ :=
    current_of_eq h (congrArg List.length hlogs).symm
  unfold view
  rw [hcur]
  simp

/-- **The log after a step.** -/
theorem Step.log_origin (h : c.Step input c' es) (hi : Logs.Indexed c.logs) (hin : input.Ok)
    {e : LogEntry} (he : e ∈ c'.logs) : Origin c input c' e := by
  cases h with
  | idleElection => exact .log he
  | campaign _ => exact .log (c.campaign_logs ▸ he)
  | idleBroadcast => exact .log he
  | broadcast _ => exact .log he
  | commitCommand command promise =>
    cases command with
    | none => cases hin
    | some command =>
      unfold Core.commitCommand at he
      split at he
      · exact .log he
      rename_i hl
      split at he
      · rename_i hsize
        rcases mem_push he with he | rfl
        · exact .log he
        · exact .proposal rfl (not_not.1 hl) rfl (proposal_mem_view hsize (not_not.1 hl) promise)
      split at he
      · exact .log he
      · exact .log he
  | appendEntries request =>
    have happ : e ∈ (Logs.append request c.logs).2 → Origin c (.appendEntries request)
        (c.appendEntries request).2 e := by
      intro he
      by_cases hent : request.entries = []
      · rw [append_nil hent] at he
        exact .log he
      · rcases Logs.mem_of_append hi he with he | rfl
        · exact .log he
        · exact .request rfl hent rfl
    rcases c.appendEntries_cases request with hr | ⟨-, hr⟩ | ⟨-, hr⟩
    · rw [hr] at he
      exact .log he
    · exact happ (by simpa [hr] using he)
    · exact happ (by simpa [hr] using he)
  | requestVote request =>
    refine .log ?_
    rcases c.requestVote_cases request with hr | hr | ⟨-, -, hr⟩ <;> rw [hr] at he
    · exact he
    · simpa using he
    · simpa using he
  | appendEntriesResponse id request response =>
    unfold Core.appendEntriesResponse count at he
    split at he
    · exact .log (by simpa [updatePeer] using he)
    · rename_i commit hm
      split at he
      · rcases mem_push he with he | rfl
        · exact .log (by simpa [updatePeer] using he)
        · exact .pending (pending_of_observe (c := c.updatePeer id request response)
            (matching_eq_some.1 hm).1) rfl
      · exact .log (by simpa [updatePeer] using he)
  | requestVoteResponse response =>
    refine .log ?_
    rcases c.requestVoteResponse_cases response with hr | hr | ⟨-, hr⟩ <;> rw [hr] at he
    · exact he
    · simpa using he
    · simpa using he

/-- **The pending commit after a step.** -/
theorem Step.pending_origin (h : c.Step input c' es) {commit : PendingCommit}
    (hc : c'.pending = some commit) : Origin c input c' commit.log := by
  cases h with
  | idleElection => exact .pending hc rfl
  | campaign _ => exact .pending (c.campaign_pending ▸ hc) rfl
  | idleBroadcast => exact .pending hc rfl
  | broadcast _ => exact .pending (current_eq_some.1 hc).1 rfl
  | commitCommand command promise =>
    by_cases hl : c.state = .leader
    · unfold Core.commitCommand at hc ⊢
      rw [if_neg (not_not.2 hl)] at hc ⊢
      split at hc
      · exact .pending hc rfl
      rename_i hsize
      rw [if_neg hsize]
      split at hc
      · exact .pending hc rfl
      rename_i hcur
      rw [if_neg hcur]
      cases hc
      exact .proposal rfl hl rfl (proposal_mem_view_of_pending rfl rfl)
    · unfold Core.commitCommand at hc
      rw [if_pos hl] at hc
      exact .pending hc rfl
  | appendEntries request =>
    refine .pending ?_ rfl
    rcases c.appendEntries_cases request with he | ⟨-, he⟩ | ⟨-, he⟩ <;> rw [he] at hc
    · exact hc
    · exact hc
    · exact pending_of_observe (pending_of_down hc)
  | requestVote request =>
    refine .pending ?_ rfl
    rcases c.requestVote_cases request with he | he | ⟨-, -, he⟩ <;> rw [he] at hc
    · exact hc
    · exact pending_of_observe hc
    · exact pending_of_observe hc
  | appendEntriesResponse id request response =>
    unfold Core.appendEntriesResponse count at hc
    split at hc
    · exact .pending (pending_of_observe (c := c.updatePeer id request response) hc) rfl
    · rename_i commit' hm
      split at hc
      · cases hc
      · cases hc
        exact .pending (pending_of_observe (c := c.updatePeer id request response)
          (matching_eq_some.1 hm).1) rfl
  | requestVoteResponse response =>
    refine .pending ?_ rfl
    rcases c.requestVoteResponse_cases response with he | he | ⟨-, he⟩ <;> rw [he] at hc
    · exact hc
    · exact pending_of_observe hc
    · rwa [elect_pending] at hc

/-! ## Notices -/

/-- What a user is told of a command: it is committed, or its commit has succeeded. -/
def Announces (id : Nat) (command : Option Command) (effect : Effect) : Prop :=
  effect = .committed id command ∨ ∃ promise, effect = .resolved promise ⟨id, command, true⟩

theorem announces_of_completeNotices {promise id : Nat} {log : LogEntry}
    {command : Option Command} {effect : Effect} (he : effect ∈ completeNotices promise log)
    (ha : Announces id command effect) : log.id = id ∧ log.command = command := by
  simp only [completeNotices, List.mem_cons, List.not_mem_nil, or_false] at he
  rcases he with rfl | rfl <;> rcases ha with ha | ⟨_, ha⟩ <;> cases ha <;> exact ⟨rfl, rfl⟩

/-- The notice of a request is about the entry it carries. -/
theorem announces_of_appendNotices {request : AppendEntriesRequest} {logs : List LogEntry}
    (hi : Logs.Indexed logs) {id : Nat} {command : Option Command} {effect : Effect}
    (he : effect ∈ Logs.appendNotices request logs) (ha : Announces id command effect) :
    request.entries ≠ [] ∧ request.leaderCommit = id ∧ some request.entries = command := by
  have ho := Logs.append_outcome hi request
  generalize Logs.append request logs = r at ho
  generalize Logs.appendNotices request logs = es at ho he
  cases ho with
  | ignored => cases he
  | rolledBack _ => cases he
  | confirmed _ _ => cases he
  | replaced hm _ _ =>
    simp only [List.mem_cons, List.not_mem_nil, or_false] at he
    rcases he with rfl | rfl <;> rcases ha with ha | ⟨_, ha⟩ <;> cases ha
    exact ⟨hm.1, rfl, rfl⟩
  | pushed hm _ =>
    rcases List.mem_singleton.1 he with rfl
    rcases ha with ha | ⟨_, ha⟩ <;> cases ha
    exact ⟨hm.1, rfl, rfl⟩

/-- **The announcements of a step.** -/
theorem Step.announced_origin (h : c.Step input c' es) (hi : Logs.Indexed c.logs) (hin : input.Ok)
    {id : Nat} {command : Option Command} {effect : Effect} (he : effect ∈ es)
    (ha : Announces id command effect) :
    ∃ e : LogEntry, e.id = id ∧ e.command = command ∧ Origin c input c' e := by
  cases h with
  | idleElection => cases he
  | campaign _ =>
    obtain ⟨node, -, rfl⟩ := List.mem_map.1 he
    rcases ha with ha | ⟨_, ha⟩ <;> cases ha
  | idleBroadcast => cases he
  | broadcast _ =>
    obtain ⟨node, -, rfl⟩ := List.mem_map.1 he
    rcases ha with ha | ⟨_, ha⟩ <;> cases ha
  | commitCommand command promise =>
    unfold commitNotices at he
    split at he
    · rename_i hone
      cases command with
      | none => cases hin
      | some command =>
        obtain ⟨h1, h2⟩ := announces_of_completeNotices he ha
        exact ⟨_, h1, h2, .proposal rfl hone.1 rfl
          (proposal_mem_view hone.2 hone.1 promise)⟩
    · cases he
  | appendEntries request =>
    rcases List.mem_append.1 he with he | he
    · unfold appendNotices at he
      split at he
      · obtain ⟨h1, h2, h3⟩ := announces_of_appendNotices hi he ha
        exact ⟨_, h2, h3, .request rfl h1 rfl⟩
      · cases he
    · rcases List.mem_singleton.1 he with rfl
      rcases ha with ha | ⟨_, ha⟩ <;> cases ha
  | requestVote request =>
    rcases List.mem_singleton.1 he with rfl
    rcases ha with ha | ⟨_, ha⟩ <;> cases ha
  | appendEntriesResponse id request response =>
    unfold countNotices at he
    split at he
    · cases he
    rename_i commit hm
    split at he
    · obtain ⟨h1, h2⟩ := announces_of_completeNotices he ha
      exact ⟨_, h1, h2, .pending (pending_of_observe
        (c := c.updatePeer id request response) (matching_eq_some.1 hm).1) rfl⟩
    · cases he
  | requestVoteResponse response => cases he

end Foros.Core
