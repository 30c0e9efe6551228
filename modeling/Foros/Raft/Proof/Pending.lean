import Foros.Raft.Proof.Moves

/-!
# The pending commit belongs to its leadership

`Core.Held c`: a pending commit is the leader's own, of the current term, with a command. Every
step keeps it (`Held.step`), whatever requests and answers the node is sent.
-/

namespace Foros

/-- A command that is committed is not null. -/
def Input.HasCommand : Input → Prop
  | .commitCommand command => command.isSome
  | _ => True

instance (input : Input) : Decidable input.HasCommand := by
  refine Input.casesOn input ?_ ?_ ?_ ?_ ?_ ?_ ?_ <;> intros <;> dsimp only [Input.HasCommand] <;>
    infer_instance

namespace Core

def Held (c : Core) : Prop := ∀ commit, c.pending = some commit →
  c.state = .leader ∧ commit.log.term = c.term ∧ commit.log.command.isSome

variable {c : Core}

theorem Held.of_none (h : c.pending = none) : c.Held := by
  intro commit hc
  rw [h] at hc
  cases hc

theorem Held.none (h : c.Held) (hs : c.state ≠ .leader) : c.pending = none := by
  cases hp : c.pending with
  | none => rfl
  | some commit => exact absurd (h commit hp).1 hs

theorem Held.down (h : c.Held) : c.down.Held := by
  obtain ⟨st, p, he, -, -, hp⟩ := c.down_eq
  rw [he]
  intro commit hc
  rcases hp with rfl | ⟨rfl, hs⟩
  · cases hc
  · exact absurd (h commit hc).1 hs

theorem Held.observe (h : c.Held) (t : Nat) : (c.observe t).Held := by
  rcases Nat.lt_or_ge c.term t with hlt | hge
  · obtain ⟨st, p, he, -, -, hp⟩ := ({ c with term := t }.resetVote).down_eq
    rw [observe_of_lt hlt, he]
    intro commit hc
    rcases hp with rfl | ⟨rfl, hs⟩
    · cases hc
    · exact absurd (h commit hc).1 hs
  · rw [observe_of_le hge]
    exact h

theorem Held.discover (h : c.Held) (request : AppendEntriesRequest) :
    (c.discover request).Held := by
  unfold Core.discover
  split
  · exact h
  · exact (h.observe _).down

theorem Held.elect (h : c.Held) : c.elect.Held := by
  rcases Nat.lt_or_ge c.voteReceived c.majority with hlt | hge
  · rw [elect_of_lt hlt]
    exact h
  · rw [elect_of_le hge]
    intro commit hc
    obtain ⟨hl, hrest⟩ := h commit hc
    refine ⟨?_, hrest⟩
    change (if c.state = .candidate then StateType.leader else c.state) = .leader
    split
    · rfl
    · exact hl

theorem Held.campaign (h : c.Held) (hs : c.state = .follower ∨ c.state = .candidate) :
    c.campaign.Held := by
  have hp : c.pending = .none := h.none (by rcases hs with hs | hs <;> simp [hs])
  exact Held.elect (.of_none hp)

/-- The pending commit an answer counts for. -/
theorem matching_eq_some {commitIndex term : Nat} {commit : PendingCommit} :
    c.matching commitIndex term = some commit ↔
      c.pending = some commit ∧ commit.log.id = commitIndex ∧ commit.log.term = term := by
  simp [matching, Option.filter_eq_some_iff]

theorem Held.count (h : c.Held) (id commitIndex term : Nat) (success : Bool) :
    (c.count id commitIndex term success).Held := by
  unfold Core.count
  cases hm : c.matching commitIndex term with
  | none => exact h
  | some commit =>
    have hp := (matching_eq_some.1 hm).1
    simp only
    split
    · exact .of_none rfl
    · intro commit' hc
      cases hc
      exact h commit hp

theorem Held.commitCommand (h : c.Held) (command : Command) (promise : Nat) :
    (c.commitCommand (some command) promise).Held := by
  unfold Core.commitCommand
  split
  · exact h
  rename_i hl
  split
  · exact h
  split
  · exact h
  · intro commit hc
    cases hc
    exact ⟨not_not.1 hl, rfl, rfl⟩

/-- **Every step keeps the pending commit with its leadership.** -/
theorem Held.step {c' : Core} {input : Input} {es : List Effect} (h : c.Held)
    (hin : input.HasCommand) (hs : c.Step input c' es) : c'.Held := by
  cases hs with
  | idleElection => exact h
  | campaign hst => exact h.campaign hst
  | idleBroadcast => exact h
  | broadcast hl => exact fun commit hc => h commit (current_eq_some.1 hc).1
  | commitCommand command promise =>
    cases command with
    | none => cases hin
    | some command => exact h.commitCommand command promise
  | appendEntries request =>
    unfold Core.appendEntries
    split
    · exact h
    · exact h.discover request
  | requestVote request =>
    rcases c.requestVote_cases request with he | he | ⟨-, -, he⟩ <;> rw [he]
    · exact h
    · exact h.observe request.term
    · exact h.observe request.term
  | appendEntriesResponse id request response =>
    have hpeer : (c.updatePeer id request response).Held := h
    exact (hpeer.observe _).count _ _ _ _
  | requestVoteResponse response =>
    rcases c.requestVoteResponse_cases response with he | he | ⟨-, he⟩ <;> rw [he]
    · exact h
    · exact h.observe _
    · exact Held.elect (c := { c with voteReceived := (c.voteReceived + 1) % 2 ^ 32 }) h

/-- What holds of a node that is sent any requests. -/
structure Sound (c : Core) : Prop where
  indexed : Logs.Indexed c.logs
  held : c.Held

theorem Sound.step {c' : Core} {input : Input} {es : List Effect} (h : c.Sound)
    (hin : input.HasCommand) (hs : c.Step input c' es) : c'.Sound := by
  refine ⟨?_, h.held.step hin hs⟩
  cases hs with
  | idleElection => exact h.indexed
  | campaign _ =>
    rw [campaign_logs]
    exact h.indexed
  | idleBroadcast => exact h.indexed
  | broadcast _ => exact h.indexed
  | commitCommand command promise =>
    unfold Core.commitCommand
    split
    · exact h.indexed
    split
    · exact h.indexed.push_snd _
    split
    · exact h.indexed
    · exact h.indexed
  | appendEntries request =>
    rcases c.appendEntries_cases request with he | ⟨-, he⟩ | ⟨-, he⟩ <;> rw [he]
    · exact h.indexed
    · exact h.indexed.append request
    · exact h.indexed.append request
  | requestVote request =>
    rcases c.requestVote_cases request with he | he | ⟨-, -, he⟩ <;> rw [he]
    · exact h.indexed
    · rw [observe_logs]
      exact h.indexed
    · change Logs.Indexed (c.observe request.term).logs
      rw [observe_logs]
      exact h.indexed
  | appendEntriesResponse id request response =>
    have hlogs : ((c.updatePeer id request response).observe response.term).logs = c.logs :=
      observe_logs ..
    unfold Core.appendEntriesResponse Core.count
    split
    · rw [hlogs]
      exact h.indexed
    split
    · change Logs.Indexed (Logs.push _
        ((c.updatePeer id request response).observe response.term).logs).2
      rw [hlogs]
      exact h.indexed.push_snd _
    · change Logs.Indexed ((c.updatePeer id request response).observe response.term).logs
      rw [hlogs]
      exact h.indexed
  | requestVoteResponse response =>
    rcases c.requestVoteResponse_cases response with he | he | ⟨-, he⟩ <;> rw [he]
    · exact h.indexed
    · rw [observe_logs]
      exact h.indexed
    · rw [elect_logs]
      exact h.indexed

end Core

end Foros
