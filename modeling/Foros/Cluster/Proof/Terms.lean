import Foros.Cluster.Proof.Election
import Foros.Cluster.Proof.Local
import Foros.Lib.Record

/-!
# Where terms come from

A term grows by one when a node's election timer fires, and otherwise only to a term that another
member has reached: no message carries a term its sender has not (`Ok.input_term`). So the terms of
a cluster never exceed the number of times an election timer has fired (`term_le_elections`), and
as long as that number stays below `2 ^ 64 - 1` no term wraps (`RecordedRun.avoids`).
-/

namespace Foros

/-- The term a message carries. -/
def Message.term : Message → Nat
  | .appendEntries request => request.term
  | .appendEntriesResponse _ response => response.term
  | .requestVote request => request.term
  | .requestVoteResponse response => response.term

/-- The term an input brings; timers and the user bring none. -/
def Input.term : Input → Nat
  | .appendEntries request => request.term
  | .appendEntriesResponse _ _ response => response.term
  | .requestVote request => request.term
  | .requestVoteResponse response => response.term
  | _ => 0

namespace Core

theorem nextTerm_le (c : Core) : c.nextTerm ≤ c.term + 1 :=
  Nat.max_le.2 ⟨Nat.le_succ _, Nat.mod_le _ _⟩

/-- The term after a step: the node's own, one more in an election, or one that a message
brings. -/
theorem Step.term_le_max {c c' : Core} {input : Input} {es : List Effect}
    (h : c.Step input c' es) :
    c'.term ≤ max (c.term + if input = .electionTimer then 1 else 0) input.term := by
  cases h with
  | idleElection => simp [Input.term]
  | campaign _ =>
    rw [campaign_term, if_pos rfl]
    exact le_max_of_le_left c.nextTerm_le
  | idleBroadcast => simp [Input.term]
  | broadcast _ => simp [Input.term]
  | commitCommand command promise =>
    obtain ⟨logs, p, he⟩ := c.commitCommand_eq command promise
    rw [he]
    simp
  | appendEntries request =>
    rcases c.appendEntries_cases request with he | ⟨-, he⟩ | ⟨-, he⟩ <;> rw [he]
    · simp
    · simp
    · simp [Input.term]
  | requestVote request =>
    rcases c.requestVote_cases request with he | he | ⟨-, -, he⟩ <;> rw [he]
    · simp
    · simp [Input.term]
    · simp [Input.term]
  | appendEntriesResponse id request response =>
    obtain ⟨logs, p, he⟩ := c.appendEntriesResponse_eq id request response
    rw [he]
    simp [Input.term]
  | requestVoteResponse response =>
    rcases c.requestVoteResponse_cases response with he | he | ⟨-, he⟩ <;> rw [he]
    · simp
    · simp [Input.term]
    · simp

end Core

namespace Cluster

variable {cfg : Config} {s s' : Cluster} {a : Action}

theorem MessageOk.term_le {src t : Nat} {m : Message} (h : MessageOk src t m) : m.term ≤ t := by
  cases m with
  | appendEntries request => exact h.2.1
  | appendEntriesResponse request response => exact h
  | requestVote request => exact h.2
  | requestVoteResponse response => exact h

theorem input_term (p : Packet) : (input p).term = p.body.term := by
  unfold input
  cases p.body <;> rfl

/-- The term an input brings is one that a member has reached. -/
theorem Ok.input_term (h : Ok cfg s) {i : Nat} {inp : Input} {client : Option Packet}
    {net : List Packet} (hsrc : Source s i inp client net) :
    inp.term = 0 ∨ ∃ j ∈ cfg.ids, inp.term ≤ (s.core j).term := by
  cases hsrc with
  | @packet k p hk _ _ =>
    have hp := h.packets p (List.mem_of_getElem? hk)
    exact .inr ⟨p.src, hp.src, Cluster.input_term p ▸ hp.body.term_le⟩
  | _ => exact .inl rfl

/-- Terms never decrease along a run. -/
theorem terms_pairwise {ok : Cluster → Action → Prop} {h : List Cluster}
    (hr : ClusterRun cfg ok h) :
    h.Pairwise fun newer older => ∀ i ∈ cfg.ids, (older.core i).term ≤ (newer.core i).term := by
  refine hr.pairwise (fun _ _ _ h1 h2 i hi => Nat.le_trans (h1 i hi) (h2 i hi))
    fun s a s' h hr _ hs i hi => ?_
  cases ((ClusterRun.ok hr s (.head _)).move hs).1.node i with
  | same he => exact Nat.le_of_eq (congrArg Core.term (core_eq he)).symm
  | callback _ _ hstep _ => exact hstep.term_le
  | restart _ hcore _ =>
    rw [hcore]
    exact Nat.le_refl _

theorem term_le_newest {ok : Cluster → Action → Prop} {h : List Cluster}
    (hr : ClusterRun cfg ok (s :: h)) {t : Cluster} (ht : t ∈ s :: h) {i : Nat}
    (hi : i ∈ cfg.ids) : (t.core i).term ≤ (s.core i).term :=
  Lib.System.le_newest (terms_pairwise hr) (fun _ _ _ => Nat.le_refl _) ht i hi

/-- An election timer fires. -/
def isElection : Action → Bool
  | .electionTimer _ => true
  | _ => false

/-- The number of times an election timer has fired. -/
def elections (as : List Action) : Nat := as.countP isElection

/-- No member has a term above `n`. -/
def TermsLe (cfg : Config) (s : Cluster) (n : Nat) : Prop := ∀ i ∈ cfg.ids, (s.core i).term ≤ n

/-- A step raises the highest term by one at most, and only in an election. -/
theorem Move.termsLe (hok : Ok cfg s) (hm : Move cfg s a s') {n : Nat} (hn : TermsLe cfg s n) :
    TermsLe cfg s' (n + if isElection a then 1 else 0) := by
  intro j hj
  have hsame : (s.core j).term ≤ n + if isElection a then 1 else 0 :=
    Nat.le_trans (hn j hj) (Nat.le_add_right _ _)
  cases hm.node j with
  | same he => exact core_eq he ▸ hsame
  | @callback inp client net es hh hsrc hstep _ =>
    have hin : inp.term ≤ n := by
      rcases hok.input_term hsrc with h0 | ⟨k, hk, hle⟩
      · rw [h0]
        exact Nat.zero_le _
      · exact Nat.le_trans hle (hn k hk)
    have hone : (if inp = .electionTimer then 1 else 0) ≤ if isElection a then 1 else 0 := by
      split
      · rename_i he
        rw [if_pos (electionTimer_of_handled (he ▸ hh) ▸ rfl)]
      · exact Nat.zero_le _
    calc (s'.core j).term
        ≤ max ((s.core j).term + if inp = .electionTimer then 1 else 0) inp.term :=
          hstep.term_le_max
      _ ≤ n + if isElection a then 1 else 0 :=
          Nat.max_le.2 ⟨Nat.add_le_add (hn j hj) hone, Nat.le_trans hin (Nat.le_add_right _ _)⟩
  | restart _ hcore _ => exact hcore ▸ hsame

end Cluster

/-- A run of a cluster with its actions. -/
abbrev RecordedRun (cfg : Config) (h : List (Cluster × List Action)) : Prop :=
  (Cluster.system cfg).record.Run (fun _ _ => True) h

theorem RecordedRun.run {cfg : Config} {h : List (Cluster × List Action)}
    (hr : RecordedRun cfg h) : ClusterRun cfg (fun _ _ => True) (h.map (·.1)) :=
  hr.of_record fun _ _ _ => trivial

theorem RecordedRun.termsLe {cfg : Config} {h : List (Cluster × List Action)}
    (hr : RecordedRun cfg h) :
    ∀ s ∈ h, Cluster.TermsLe cfg s.1 (Cluster.elections s.2) :=
  hr.forall_countP (fun i _ => by rw [show (Cluster.system cfg).init = Cluster.init cfg from rfl,
    Cluster.init_core]) fun _ _ _ _ hs hstep hn =>
      have hok := hr.run.ok _ hs
      (hok.move hstep).1.termsLe hok hn

/-- With fewer elections than terms, no term wraps. -/
theorem RecordedRun.avoids {cfg : Config} {h : List (Cluster × List Action)}
    (hr : RecordedRun cfg h) (hcount : ∀ s ∈ h, Cluster.elections s.2 < 2 ^ 64 - 1) :
    ClusterRun cfg (Cluster.Avoids Node.Wraps) (h.map (·.1)) := by
  have hterm : ∀ t ∈ h.map (·.1), ∀ i ∈ cfg.ids, (t.nodes i).store.currentTerm < 2 ^ 64 - 1 := by
    intro t ht i hi
    obtain ⟨s, hs, rfl⟩ := List.mem_map.1 ht
    exact Nat.lt_of_le_of_lt (hr.termsLe s hs i hi) (hcount s hs)
  exact (Cluster.avoids_wraps hr.run hterm).mono fun _ _ hok => hok.2

end Foros
