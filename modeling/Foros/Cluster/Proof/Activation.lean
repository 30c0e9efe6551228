import Foros.Cluster.Proof.Completeness
import Foros.Cluster.Proof.Terms
import Mathlib.Data.List.Perm.Subperm

/-!
# Activations

A node is activated when it is elected, and a term has one election that succeeds: who leads a term
has not led it before, and nobody else has. So along a run, over all nodes and all their restarts,
no two activations have the same term (`activated_once`), and there are at most as many of them as
firings of election timers.
-/

namespace Foros

namespace Cluster

variable {cfg : Config} {s s' : Cluster} {h : List Cluster}

/-- The nodes that a step activates. -/
def activated (cfg : Config) (s s' : Cluster) : List Nat :=
  cfg.ids.filter fun i => !(s.nodes i).isActivated && (s'.nodes i).isActivated

/-- The terms of all activations of a run. -/
def activations (cfg : Config) : List Cluster → List Nat
  | s' :: s :: h =>
    (activated cfg s s').map (fun i => (s'.nodes i).store.currentTerm) ++ activations cfg (s :: h)
  | _ => []

theorem mem_activated (hok : Ok cfg s) (hok' : Ok cfg s') {i : Nat} :
    i ∈ activated cfg s s' ↔ i ∈ cfg.ids ∧ Elected s s' i := by
  simp only [activated, List.mem_filter, Bool.and_eq_true, Bool.not_eq_true']
  refine and_congr_right fun hi => ?_
  rw [← Bool.not_eq_true, (hok.nodes i hi).aligned.isActivated,
    (hok'.nodes i hi).aligned.isActivated]
  exact ⟨fun ⟨h1, h2⟩ => ⟨h1, h2⟩, fun ⟨h1, h2⟩ => ⟨h1, h2⟩⟩

/-- Who is elected has not led the term before, and nobody else has. -/
theorem Elected.fresh (hr : ClusterRun cfg (Avoids Node.Wraps) (s' :: s :: h)) {b : Nat}
    (hb : b ∈ cfg.ids) (hel : Elected s s' b) {x : Cluster} (hx : x ∈ s :: h) {c : Nat}
    (hc : c ∈ cfg.ids) (hl : (x.core c).state = .leader) : (x.core c).term ≠ (s'.core b).term := by
  intro hT
  obtain rfl : c = b := leaders_eq hr (.tail _ hx) (.head _) hc hb hl hel.after hT
  have hp := List.pairwise_cons.1 (voteLe_pairwise hr)
  have h1 := Lib.System.le_newest hp.2 (fun _ _ _ => .refl _) hx c hc
  have h2 := hp.1 s (.head _) c hc
  -- between two moments of one term a leader stays one
  have h3 := h1.term_le
  have h4 := h2.term_le
  have hrank := h1.rank (by omega)
  have hrank' := h2.rank (by omega)
  have hne := hel.before
  rw [hl] at hrank
  rw [hel.after] at hrank'
  cases hst : (s.core c).state <;> simp [hst, StateType.rank] at hrank hrank' hne

/-- An activation is that of a leader. -/
theorem mem_activations {ok : Cluster → Action → Prop} {T : Nat} :
    ∀ {h : List Cluster}, ClusterRun cfg ok h → T ∈ activations cfg h →
      ∃ x ∈ h, ∃ i ∈ cfg.ids, (x.core i).state = .leader ∧ (x.core i).term = T
  | _, .init, hT => by cases hT
  | s' :: s :: h, .step hr ha hs, hT => by
    rcases List.mem_append.1 hT with hT | hT
    · obtain ⟨i, hi, hterm⟩ := List.mem_map.1 hT
      have hok := ClusterRun.ok hr s (.head _)
      obtain ⟨hi, hel⟩ := (mem_activated hok (hok.move hs).2).1 hi
      exact ⟨s', .head _, i, hi, hel.after, hterm⟩
    · obtain ⟨x, hx, hrest⟩ := mem_activations hr hT
      exact ⟨x, .tail _ hx, hrest⟩

/-- The activations of a run have different terms. -/
theorem nodup_activations : ∀ {h : List Cluster}, ClusterRun cfg (Avoids Node.Wraps) h →
    (activations cfg h).Nodup
  | _, .init => List.nodup_nil
  | s' :: s :: h, .step hr ha hs => by
    have hr' : ClusterRun cfg (Avoids Node.Wraps) (s' :: s :: h) := .step hr ha hs
    have hok := ClusterRun.ok hr s (.head _)
    have hnew : ∀ {i : Nat}, i ∈ activated cfg s s' → i ∈ cfg.ids ∧ Elected s s' i :=
      (mem_activated hok (hok.move hs).2).1
    refine List.nodup_append.2 ⟨?_, nodup_activations hr, fun T hT T' hT' => ?_⟩
    · refine (List.nodup_map_iff_inj_on (cfg.nodup.filter _)).2 fun i hi j hj heq => ?_
      obtain ⟨hi, heli⟩ := hnew hi
      obtain ⟨hj, helj⟩ := hnew hj
      exact leaders_eq hr' (.head _) (.head _) hi hj heli.after helj.after heq
    · obtain ⟨i, hi, rfl⟩ := List.mem_map.1 hT
      obtain ⟨hi, hel⟩ := hnew hi
      obtain ⟨x, hx, c, hc, hl, rfl⟩ := mem_activations hr hT'
      exact fun heq => hel.fresh hr' hi hx hc hl heq.symm

end Cluster

/-- **No two activations in one term**, over all nodes of a cluster and all their restarts: as long
as election timers fire fewer than `2 ^ 64 - 1` times, there are at most as many activations as
firings. -/
theorem activated_once {cfg : Config} {s : Cluster × List Action}
    {h : List (Cluster × List Action)} (hr : RecordedRun cfg (s :: h))
    (hcount : ∀ t ∈ s :: h, Cluster.elections t.2 < 2 ^ 64 - 1) :
    (Cluster.activations cfg ((s :: h).map (·.1))).Nodup ∧
      (Cluster.activations cfg ((s :: h).map (·.1))).length ≤ Cluster.elections s.2 := by
  have hnodup := Cluster.nodup_activations (hr.avoids hcount)
  refine ⟨hnodup, ?_⟩
  -- the terms lie between 1 and the number of elections
  have hsub : Cluster.activations cfg ((s :: h).map (·.1)) ⊆
      List.range' 1 (Cluster.elections s.2) := by
    intro T hT
    obtain ⟨x, hx, i, hi, hl, rfl⟩ := Cluster.mem_activations hr.run hT
    have hpos := ((hr.run.ok x hx).nodes i hi).core.term_pos (.inr hl)
    have hle : (x.core i).term ≤ Cluster.elections s.2 :=
      Nat.le_trans (Cluster.term_le_newest hr.run hx hi) (hr.termsLe s (.head _) i hi)
    exact List.mem_range'_1.2 ⟨hpos, by omega⟩
  have hle := (List.Nodup.subperm hnodup hsub).length_le
  rwa [List.length_range'] at hle

/-- Three nodes: three elections, in terms 1, 1 and 2, and two activations, the second after a
restart. -/
theorem activated_once_restart :
    ∃ s h, RecordedRun (.range 3 (by decide)) (s :: h) ∧ Cluster.elections s.2 = 3 ∧
      Cluster.activations (.range 3 (by decide)) ((s :: h).map (·.1)) = [2, 1] ∧
      (Cluster.activations (.range 3 (by decide)) ((s :: h).map (·.1))).length ≤ 3 := by
  obtain ⟨h, hr, hc⟩ := Lib.System.exists_run
    (S := (Cluster.system (.range 3 (by decide))).record) (fun _ _ => True)
    [.electionTimer 0, .electionTimer 1, .deliver 1, .deliver 3, .restart 0, .electionTimer 0,
      .deliver 4, .deliver 4]
    (fun
      | s :: h => decide (Cluster.elections s.2 = 3) &&
          ((s :: h).all fun t => decide (Cluster.elections t.2 < 2 ^ 64 - 1)) &&
          decide (Cluster.activations (.range 3 (by decide)) ((s :: h).map (·.1)) = [2, 1])
      | [] => false) (by decide +kernel)
  split at hc
  · rename_i s h
    simp only [Bool.and_eq_true, List.all_eq_true, decide_eq_true_eq] at hc
    obtain ⟨⟨h3, hcount⟩, hacts⟩ := hc
    have hle := (activated_once hr hcount).2
    exact ⟨s, h, hr, h3, hacts, Nat.le_trans hle (Nat.le_of_eq h3)⟩
  · cases hc

end Foros
