import Foros.Cluster.Proof.Local
import Foros.Raft.Proof.Lifecycle

/-!
# Nodes that run

Once a node has been started it is never in standby again: its election timer runs in every
reachable state, its broadcast timer runs when it leads and only then, and its lifecycle state is
active then and standby otherwise (`timers_follow_state`).
-/

namespace Foros

namespace Core

variable {c c' : Core}

theorem down_standby_iff : c.down.state = .standby ↔ c.state = .standby := by
  cases h : c.state with
  | standby => rw [down_standby h, h]
  | follower => rw [down_follower h, h]
  | candidate => simp [down_candidate h]
  | leader => simp [down_leader h]

theorem observe_standby_iff {t : Nat} : (c.observe t).state = .standby ↔ c.state = .standby := by
  rcases Nat.lt_or_ge c.term t with h | h
  · rw [observe_of_lt h, down_standby_iff]
    rfl
  · rw [observe_of_le h]

theorem elect_standby (h : c.elect.state = .standby) : c.state = .standby := by
  unfold elect at h
  split at h
  · exact h
  · simp only at h
    split at h
    · cases h
    · exact h

/-- No step leads to standby. -/
theorem Step.standby {input : Input} {es : List Effect} (h : c.Step input c' es)
    (hs : c'.state = .standby) : c.state = .standby := by
  cases h with
  | idleElection => exact hs
  | campaign _ => cases elect_standby hs
  | idleBroadcast => exact hs
  | broadcast _ => exact hs
  | commitCommand command promise =>
    obtain ⟨logs, p, he⟩ := c.commitCommand_eq command promise
    rw [he] at hs
    exact hs
  | appendEntries request =>
    rcases c.appendEntries_cases request with he | ⟨-, he⟩ | ⟨-, he⟩ <;> rw [he] at hs
    · exact hs
    · exact hs
    · exact observe_standby_iff.1 (down_standby_iff.1 hs)
  | requestVote request =>
    rcases c.requestVote_cases request with he | he | ⟨-, -, he⟩ <;> rw [he] at hs
    · exact hs
    · exact observe_standby_iff.1 hs
    · exact observe_standby_iff.1 hs
  | appendEntriesResponse id request response =>
    obtain ⟨logs, p, he⟩ := c.appendEntriesResponse_eq id request response
    rw [he] at hs
    exact (observe_standby_iff (c := c.updatePeer id request response)).1 hs
  | requestVoteResponse response =>
    rcases c.requestVoteResponse_cases response with he | he | ⟨-, he⟩ <;> rw [he] at hs
    · exact hs
    · exact observe_standby_iff.1 hs
    · exact elect_standby (c := { c with voteReceived := (c.voteReceived + 1) % 2 ^ 32 }) hs

end Core

namespace Cluster

variable {cfg : Config} {s s' : Cluster} {a : Action}

/-- A state in order whose nodes have been started, with the timers of their states. -/
structure Live (cfg : Config) (s : Cluster) : Prop where
  ok : Ok cfg s
  timed : ∀ i ∈ cfg.ids, (s.nodes i).Timed
  started : ∀ i ∈ cfg.ids, (s.core i).state ≠ .standby

theorem Live.step (h : Live cfg s) (hs : step cfg s a = some s') : Live cfg s' := by
  obtain ⟨hm, hok⟩ := h.ok.move hs
  refine ⟨hok, fun i hi => ?_, fun i hi hstand => ?_⟩
  · rcases node_of_step hs i with he | ⟨inp, -, he⟩ | ⟨-, he⟩ <;> rw [he]
    · exact h.timed i hi
    · exact (h.timed i hi).run (p := fun _ => true) inp
    · exact Node.Timed.create (p := fun _ => true) ..
  · apply h.started i hi
    cases hm.node i with
    | same he => rw [← core_eq he, hstand]
    | callback _ _ hstep _ => exact hstep.standby hstand
    | restart _ hcore _ =>
      rw [hcore] at hstand
      cases hstand

theorem Live.init (cfg : Config) : Live cfg (Cluster.init cfg) :=
  ⟨Ok.init cfg, fun _ _ => Node.Timed.create (p := fun _ => true) .., fun i _ => by
    rw [init_core]
    exact nofun⟩

theorem live {ok : Cluster → Action → Prop} {h : List Cluster} (hr : ClusterRun cfg ok h) :
    ∀ s ∈ h, Live cfg s :=
  hr.forall_mem (Live.init cfg) fun _ _ _ hs _ hstep => hs.step hstep

end Cluster

/-- **The timers follow the state** in every reachable state. -/
theorem timers_follow_state {cfg : Config} {h : List Cluster}
    (hr : ClusterRun cfg (fun _ _ => True) h) :
    ∀ s ∈ h, ∀ i ∈ cfg.ids,
      (s.nodes i).electionTimer = true ∧
      ((s.nodes i).broadcastTimer = true ↔ (s.nodes i).state = .leader) ∧
      (s.nodes i).lifecycle = if (s.nodes i).state = .leader then .active else .standby := by
  intro s hs i hi
  have hlive := Cluster.live hr s hs
  have hne : (s.nodes i).state ≠ .standby := hlive.started i hi
  obtain ⟨h1, h2⟩ := hlive.timed i hi
  have hal : (s.nodes i).lifecycle = (s.nodes i).state.lifecycle := (hlive.ok.nodes i hi).aligned
  refine ⟨by simpa [hne] using h1, by simp [h2], ?_⟩
  rw [hal]
  cases hst : (s.nodes i).state with
  | standby => exact absurd hst hne
  | _ => rfl

/-- Two nodes: node 0 has been elected. -/
theorem timers_follow_state_elected :
    ∃ h, ClusterRun (.range 2 (by decide)) (fun _ _ => True) h ∧
      ∃ s ∈ h, (s.nodes 0).state = .leader ∧ (s.nodes 1).state = .follower ∧
        (s.nodes 0).broadcastTimer = true ∧ (s.nodes 1).lifecycle = .standby := by
  obtain ⟨h, hr, hc⟩ := Lib.System.exists_run (S := Cluster.system (.range 2 (by decide)))
    (fun _ _ => True) [.electionTimer 0, .deliver 0, .deliver 0]
    (fun h => h.any fun s => decide ((s.nodes 0).state = .leader ∧ (s.nodes 1).state = .follower))
    (by decide +kernel)
  obtain ⟨s, hs, hc⟩ := List.any_eq_true.1 hc
  obtain ⟨h0, h1⟩ := of_decide_eq_true hc
  have hfollows := timers_follow_state hr s hs 1 (by decide)
  exact ⟨h, hr, s, hs, h0, h1, (timers_follow_state hr s hs 0 (by decide)).2.1.2 h0,
    by rw [hfollows.2.2, h1]; rfl⟩

end Foros
