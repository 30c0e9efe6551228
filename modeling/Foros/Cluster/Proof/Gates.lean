import Foros.Cluster.Gates
import Foros.Cluster.Proof.Terms
import Foros.Lib.Refinement
import Foros.Raft.Proof.Control

/-!
# One node serves at a time

What gets through the gates in one term gets through those of one node, and the terms of what gets
through the gates of one node never decrease, its restarts included (`passed_by_one_node`). A
deposed leader that has not heard of its successor still lets messages through, and so does one that
is stepping down while its user is told that a commit has failed; they belong to an older term.
-/

namespace Foros

open LifecycleState

/-- During a callback a node is active only if it was before, or will lead afterwards. -/
theorem Node.active_during {n : Node} {input : Input} {k : Nat}
    (h : (n.run .plain input).lifecycleAfter n.lifecycle k = .active) :
    n.isActivated = true ∨ (n.run .plain input).state = .leader := by
  unfold lifecycleAfter at h
  cases hlast : (((n.run .plain input).trace.take k).filterMap Effect.toldState).getLast? with
  | none =>
    rw [hlast] at h
    exact .inl (decide_eq_true h)
  | some state =>
    rw [hlast] at h
    obtain rfl : state = .active := h
    obtain ⟨e, he, htold⟩ := List.mem_filterMap.1 (List.mem_of_getLast? hlast)
    obtain ⟨up, hcontrol⟩ := Node.control_run (p := fun _ => true) input n
    right
    rcases hcontrol.told_active (List.mem_filterMap.2 ⟨e, List.mem_of_mem_take he, htold⟩) with
      hm | ⟨-, hs⟩
    · cases hm
    · exact hs

/-- A gate lets through what it is given while the node is active. -/
theorem gate_eq_some {α : Type} {n : Node} {x y : α} :
    gate (some n) x = some y ↔ n.isActivated = true ∧ x = y := by
  unfold gate
  by_cases hact : n.isActivated = true
  · simp [hact]
  · simp [hact]

/-- Something passes of the term its node leads before a step from `s`, or of the one it leads after
the step, in `s'`. -/
def Passed.Served (s s' : Cluster) (p : Passed) : Prop :=
  (s.nodes p.node).isActivated = true ∧ p.term = (s.nodes p.node).store.currentTerm ∨
    (s.nodes p.node).isActivated = false ∧ (s'.nodes p.node).state = .leader ∧
      p.term = (s'.nodes p.node).store.currentTerm

/-- What passes in a step at one node is of one term. -/
theorem Passed.Served.term_eq {s s' : Cluster} {p q : Passed} (hp : p.Served s s')
    (hq : q.Served s s') (h : p.node = q.node) : p.term = q.term := by
  unfold Served at hp
  rw [h] at hp
  rcases hp with ⟨h1, h2⟩ | ⟨h1, -, h2⟩ <;> rcases hq with ⟨h3, h4⟩ | ⟨h3, -, h4⟩
  · exact h2.trans h4.symm
  · rw [h1] at h3
    cases h3
  · rw [h1] at h3
    cases h3
  · exact h2.trans h4.symm

namespace Gates

variable {cfg : Config} {g g' : Gates} {a : GateAction} {h : List (Gates × List GateAction)}

/-- What the user's callbacks publish in a step. -/
theorem served_of_passedDuring {s s' : Cluster} {b : Action} (hok : Cluster.Ok cfg s)
    (hs : Cluster.step cfg s b = some s') {said : List (Nat × Bytes)} {p : Passed}
    (hp : p ∈ passedDuring s s' b said) : p.node ∈ cfg.ids ∧ p.Served s s' := by
  unfold passedDuring at hp
  cases hh : s.handled b with
  | none =>
    rw [hh] at hp
    cases hp
  | some c =>
    obtain ⟨i, inp⟩ := c
    rw [hh] at hp
    obtain ⟨⟨k, msg⟩, -, hp⟩ := List.mem_filterMap.1 (List.mem_reverse.1 hp)
    obtain ⟨-, hp⟩ := Option.ite_none_right_eq_some.1 hp
    obtain ⟨body, hbody, rfl⟩ := Option.map_eq_some_iff.1 hp
    obtain ⟨hi, hnode⟩ := hok.run_of_handled hs hh
    have hactive := of_decide_eq_true (gate_eq_some.1 hbody).1
    rw [hnode] at hactive
    refine ⟨hi, ?_⟩
    unfold Passed.Served
    rcases Bool.eq_false_or_eq_true (s.nodes i).isActivated with hact | hact
    · exact .inl ⟨hact, if_pos hact⟩
    · refine .inr ⟨hact, ?_, if_neg (by simp [hact])⟩
      rw [hnode]
      exact (Node.active_during hactive).resolve_left (by simp [hact])

/-- A step leaves the cluster alone or is a step of it. -/
theorem step_cluster (hs : step cfg g a = some g') :
    (∃ b, a.action = some b ∧ Cluster.step cfg g.cluster b = some g'.cluster) ∨
      a.action = none ∧ g'.cluster = g.cluster := by
  have hpass : ∀ i body, (g.pass i body).cluster = g.cluster := fun i body => by
    cases body <;> rfl
  cases a with
  | cluster b said =>
    obtain ⟨s, hstep, rfl⟩ := Option.map_eq_some_iff.1 hs
    exact .inl ⟨b, rfl, hstep⟩
  | publish i msg =>
    obtain ⟨-, hs⟩ := Option.ite_none_right_eq_some.1 hs
    exact .inr ⟨rfl, Option.some.inj hs ▸ hpass i _⟩
  | request i request =>
    obtain ⟨-, hs⟩ := Option.ite_none_right_eq_some.1 hs
    exact .inr ⟨rfl, Option.some.inj hs ▸ hpass i _⟩

/-- What a step lets through, newest first. -/
theorem step_passed (hok : Cluster.Ok cfg g.cluster) (hs : step cfg g a = some g') :
    ∃ new, g'.passed = new ++ g.passed ∧
      ∀ p ∈ new, p.node ∈ cfg.ids ∧ p.Served g.cluster g'.cluster := by
  -- a message and a request pass in the same way between two callbacks
  have hgate : ∀ i ∈ cfg.ids, ∀ body, g.pass i (gate (some (g.cluster.nodes i)) body) = g' →
      ∃ new, g'.passed = new ++ g.passed ∧
        ∀ p ∈ new, p.node ∈ cfg.ids ∧ p.Served g.cluster g'.cluster := by
    rintro i hi body rfl
    cases hbody : gate (some (g.cluster.nodes i)) body with
    | none => exact ⟨[], rfl, fun p hp => (List.not_mem_nil hp).elim⟩
    | some y =>
      refine ⟨[⟨i, _, y⟩], rfl, fun p hp => ?_⟩
      obtain rfl := List.mem_singleton.1 hp
      exact ⟨hi, .inl ⟨(gate_eq_some.1 hbody).1, rfl⟩⟩
  cases a with
  | cluster b said =>
    obtain ⟨s, hstep, rfl⟩ := Option.map_eq_some_iff.1 hs
    exact ⟨_, rfl, fun p hp => served_of_passedDuring hok hstep hp⟩
  | publish i msg =>
    obtain ⟨hi, hs⟩ := Option.ite_none_right_eq_some.1 hs
    exact hgate i hi msg (Option.some.inj hs)
  | request i request =>
    obtain ⟨hi, hs⟩ := Option.ite_none_right_eq_some.1 hs
    exact hgate i hi request (Option.some.inj hs)

/-- The cluster and its actions. -/
def recorded (s : Gates × List GateAction) : Cluster × List Action :=
  (s.1.cluster, s.2.filterMap GateAction.action)

/-- The states of the cluster are those of a run. -/
theorem recorded_run (hr : GateRun cfg h) :
    ∃ k, RecordedRun cfg k ∧ k.head? = h.head?.map recorded ∧
      ∀ t, t ∈ k ↔ ∃ s ∈ h, recorded s = t := by
  refine hr.project (A := (Cluster.system cfg).record) recorded (fun _ _ => True) rfl
    fun s a s' _ hs => ?_
  obtain ⟨hs, hact⟩ := Lib.System.record_step.1 hs
  unfold recorded
  rcases step_cluster hs with ⟨b, hb, hstep⟩ | ⟨hnone, hsame⟩
  · refine .inr ⟨b, trivial, Lib.System.record_step.2 ⟨hstep, ?_⟩⟩
    rw [hact, List.filterMap_cons_some hb]
  · left
    rw [hsame, hact, List.filterMap_cons_none hnone]

theorem cluster_ok {s : Gates × List GateAction} (hr : GateRun cfg (s :: h)) :
    Cluster.Ok cfg s.1.cluster := by
  obtain ⟨k, hk, -, hmem⟩ := recorded_run hr
  exact hk.run.ok _ (List.mem_map_of_mem ((hmem _).2 ⟨s, .head _, rfl⟩))

/-- The terms of a node do not decrease. -/
theorem term_le {s t : Gates × List GateAction} (hr : GateRun cfg (s :: h)) (ht : t ∈ s :: h)
    {i : Nat} (hi : i ∈ cfg.ids) :
    (t.1.cluster.core i).term ≤ (s.1.cluster.core i).term := by
  obtain ⟨k, hk, hhead, hmem⟩ := recorded_run hr
  cases k with
  | nil => cases hhead
  | cons x k =>
    obtain rfl : x = recorded s := Option.some.inj hhead
    exact Cluster.term_le_newest hk.run
      (List.mem_map_of_mem (f := (·.1)) ((hmem _).2 ⟨t, ht, rfl⟩)) hi

/-- At some moment, the node of `p` led the term of `p`. -/
def Led (cfg : Config) (h : List (Gates × List GateAction)) (p : Passed) : Prop :=
  p.node ∈ cfg.ids ∧ ∃ s ∈ h, (s.1.cluster.core p.node).state = .leader ∧
    (s.1.cluster.core p.node).term = p.term

/-- What has passed by the end of a history. -/
structure Passing (cfg : Config) (s : Gates × List GateAction)
    (h : List (Gates × List GateAction)) : Prop where
  led : ∀ p ∈ s.1.passed, Led cfg (s :: h) p
  ordered : s.1.passed.Pairwise fun newer older =>
    newer.node = older.node → older.term ≤ newer.term

theorem Passing.step {s s' : Gates × List GateAction} (hr : GateRun cfg (s :: h))
    (hr' : GateRun cfg (s' :: s :: h)) (hp : Passing cfg s h) (hs : step cfg s.1 a = some s'.1) :
    Passing cfg s' (s :: h) := by
  have hok := cluster_ok hr
  obtain ⟨new, hpassed, hnew⟩ := step_passed hok hs
  refine ⟨fun p hm => ?_, ?_⟩
  · rw [hpassed] at hm
    rcases List.mem_append.1 hm with hm | hm
    · obtain ⟨hi, ⟨hact, hT⟩ | ⟨-, hl, hT⟩⟩ := hnew p hm
      · exact ⟨hi, s, .tail _ (.head _), (hok.nodes _ hi).aligned.isActivated.1 hact, hT.symm⟩
      · exact ⟨hi, s', .head _, hl, hT.symm⟩
    · obtain ⟨hi, t, ht, hl⟩ := hp.led p hm
      exact ⟨hi, t, .tail _ ht, hl⟩
  · rw [hpassed]
    refine List.pairwise_append.2 ⟨?_, hp.ordered, fun p hm q hq hnode => ?_⟩
    · exact List.pairwise_of_forall_mem_list fun p hm q hq hnode =>
        Nat.le_of_eq ((hnew q hq).2.term_eq (hnew p hm).2 hnode.symm)
    · -- the term of `q` was that of the node earlier
      obtain ⟨hi, t, ht, -, hterm⟩ := hp.led q hq
      rw [← hterm]
      obtain ⟨-, ⟨-, hT⟩ | ⟨-, -, hT⟩⟩ := hnew p hm <;> rw [hT, hnode]
      · exact term_le hr ht hi
      · exact term_le hr' (.tail _ ht) hi

theorem Passing.of_run {s : Gates × List GateAction} (hr : GateRun cfg (s :: h)) :
    Passing cfg s h := by
  refine hr.history (P := fun | [] => True | s :: h => Passing cfg s h) ?_
    fun s a s' h hr hp hok hs => hp.step hr (.step hr hok hs) (Lib.System.record_step.1 hs).1
  exact ⟨fun p hp => (List.not_mem_nil hp).elim, List.Pairwise.nil⟩

end Gates

/-- **One node serves at a time.** As long as election timers fire fewer than `2 ^ 64 - 1` times,
all messages published and requests served under leaders of one term are those of one node, and the
terms of those of one node never decrease. -/
theorem passed_by_one_node {cfg : Config} {s : Gates × List GateAction}
    {h : List (Gates × List GateAction)} (hr : GateRun cfg (s :: h))
    (hcount : ∀ t ∈ s :: h, Cluster.elections (t.2.filterMap GateAction.action) < 2 ^ 64 - 1) :
    s.1.passed.Pairwise fun newer older =>
      (newer.term = older.term → newer.node = older.node) ∧
      (newer.node = older.node → older.term ≤ newer.term) := by
  obtain ⟨k, hk, -, hmem⟩ := Gates.recorded_run hr
  have havoids : ClusterRun cfg (Cluster.Avoids Node.Wraps) (k.map (·.1)) :=
    hk.avoids fun t ht => by
      obtain ⟨u, hu, rfl⟩ := (hmem t).1 ht
      exact hcount u hu
  have hmoment : ∀ t ∈ s :: h, t.1.cluster ∈ k.map (·.1) := fun t ht =>
    List.mem_map_of_mem (f := (·.1)) ((hmem _).2 ⟨t, ht, rfl⟩)
  have hpassing := Gates.Passing.of_run hr
  refine hpassing.ordered.imp_of_mem fun {p q} hp hq hord => ⟨fun hterm => ?_, hord⟩
  obtain ⟨hi, t, ht, hl, hT⟩ := hpassing.led p hp
  obtain ⟨hj, u, hu, hl', hU⟩ := hpassing.led q hq
  exact Cluster.leaders_eq havoids (hmoment t ht) (hmoment u hu) hi hj hl hl'
    (hT.trans (hterm.trans hU.symm))

/-- Three nodes: node 0 publishes in term 1, and once more when node 1 has published in term 2, from
the callback by which it hears that its commit has failed. What it publishes when it is told of
`standby` does not get through, nor what node 2 is asked. -/
theorem passed_by_one_node_deposed_leader :
    ∃ s h, GateRun (.range 3 (by decide)) (s :: h) ∧
      s.1.passed = [⟨0, 1, [3]⟩, ⟨1, 2, [2]⟩, ⟨0, 1, [1]⟩] ∧
      s.1.passed.Pairwise fun newer older => newer.node = older.node → older.term ≤ newer.term := by
  obtain ⟨h, hr, hc⟩ := Lib.System.exists_run
    (S := (Gates.system (.range 3 (by decide))).record) (fun _ _ => True)
    [.cluster (.electionTimer 0) [], .cluster (.lose 1) [], .cluster (.deliver 0) [],
      .cluster (.deliver 0) [], .publish 0 [1], .cluster (.commitCommand 0 [7]) [],
      .cluster (.electionTimer 1) [], .cluster (.deliver 1) [], .cluster (.deliver 1) [],
      .publish 1 [2], .request 2 [9], .cluster (.deliver 0) [(3, [3]), (4, [4])]]
    (fun
      | s :: h => decide (s.1.passed = [⟨0, 1, [3]⟩, ⟨1, 2, [2]⟩, ⟨0, 1, [1]⟩]) &&
          (s :: h).all fun t =>
            decide (Cluster.elections (t.2.filterMap GateAction.action) < 2 ^ 64 - 1)
      | [] => false) (by decide +kernel)
  split at hc
  · rename_i s h
    simp only [Bool.and_eq_true, List.all_eq_true, decide_eq_true_eq] at hc
    obtain ⟨hpassed, hcount⟩ := hc
    exact ⟨s, h, hr, hpassed, (passed_by_one_node hr hcount).imp fun hpq => hpq.2⟩
  · cases hc

end Foros
