import Foros.Cluster.Ledger
import Foros.Cluster.Proof.Durability

/-!
# The cluster refines the ledger

`ledger cfg h` is what the users of a cluster have seen happen in the history `h`: who has been
active in which term, and which commits have been acknowledged. Along every run in which answers are
counted right and leaders are complete, each step of the cluster shows as steps of the ledger, and
what an active node answers to `get_command` is an answer the ledger allows
(`cluster_refines_ledger`).
-/

namespace Foros

namespace Cluster

variable {cfg : Config} {s s' : Cluster} {h : List Cluster}

/-- What has been seen to happen. -/
def ledger (cfg : Config) (h : List Cluster) : Ledger where
  active := {x | ∃ s ∈ h, x.2 ∈ cfg.ids ∧ (s.nodes x.2).isActivated = true ∧
    (s.nodes x.2).store.currentTerm = x.1}
  entries := {x | ∃ s ∈ h, ∃ i ∈ cfg.ids, (s.nodes i).store.currentTerm = x.1 ∧
    ∃ promise, .resolved promise ⟨x.2.1, x.2.2, true⟩ ∈ (s.nodes i).trace}

/-- Node `b` is active, and answers the reading's command for its id. -/
def Reads (cfg : Config) (s : Cluster) (r : Reading) : Prop :=
  ∃ b ∈ cfg.ids, (s.nodes b).isActivated = true ∧ (s.nodes b).store.currentTerm = r.term ∧
    (s.nodes b).getCommand r.id = r.command

/-! ## One state -/

/-- The active nodes of a state. -/
def activeNow (cfg : Config) (s : Cluster) : List (Nat × Nat) :=
  (cfg.ids.filter fun i => (s.nodes i).isActivated).map fun i => ((s.nodes i).store.currentTerm, i)

/-- The command of a commit that has succeeded. -/
def acknowledged : Effect → Option (Nat × Option Command)
  | .resolved _ response => if response.result then some (response.id, response.command) else none
  | _ => none

/-- The commits that nodes have acknowledged in their latest callbacks. -/
def acknowledgedNow (cfg : Config) (s : Cluster) : List (Nat × Nat × Option Command) :=
  cfg.ids.flatMap fun i =>
    ((s.nodes i).trace.filterMap acknowledged).map fun x => ((s.nodes i).store.currentTerm, x)

theorem mem_activeNow {x : Nat × Nat} :
    x ∈ activeNow cfg s ↔ x.2 ∈ cfg.ids ∧ (s.nodes x.2).isActivated = true ∧
      (s.nodes x.2).store.currentTerm = x.1 := by
  obtain ⟨t, i⟩ := x
  simp only [activeNow, List.mem_map, List.mem_filter, Prod.mk.injEq]
  constructor
  · rintro ⟨j, ⟨hj, hact⟩, rfl, rfl⟩
    exact ⟨hj, hact, rfl⟩
  · rintro ⟨hi, hact, rfl⟩
    exact ⟨i, ⟨hi, hact⟩, rfl, rfl⟩

theorem acknowledged_eq_some {e : Effect} {id : Nat} {command : Option Command} :
    acknowledged e = some (id, command) ↔ ∃ promise, e = .resolved promise ⟨id, command, true⟩ := by
  constructor
  · intro he
    unfold acknowledged at he
    split at he
    · rename_i promise response
      split at he
      · rename_i hr
        cases he
        obtain ⟨id, command, result⟩ := response
        cases hr
        exact ⟨promise, rfl⟩
      · cases he
    · cases he
  · rintro ⟨promise, rfl⟩
    rfl

theorem mem_acknowledgedNow {x : Nat × Nat × Option Command} :
    x ∈ acknowledgedNow cfg s ↔ ∃ i ∈ cfg.ids, (s.nodes i).store.currentTerm = x.1 ∧
      ∃ promise, .resolved promise ⟨x.2.1, x.2.2, true⟩ ∈ (s.nodes i).trace := by
  obtain ⟨t, id, command⟩ := x
  simp only [acknowledgedNow, List.mem_flatMap, List.mem_map, List.mem_filterMap, Prod.mk.injEq]
  constructor
  · rintro ⟨i, hi, y, ⟨e, he, hy⟩, rfl, rfl⟩
    obtain ⟨promise, rfl⟩ := acknowledged_eq_some.1 hy
    exact ⟨i, hi, rfl, promise, he⟩
  · rintro ⟨i, hi, rfl, promise, he⟩
    exact ⟨i, hi, _, ⟨_, he, acknowledged_eq_some.2 ⟨promise, rfl⟩⟩, rfl, rfl⟩

theorem ledger_cons (s : Cluster) (h : List Cluster) :
    ledger cfg (s :: h) =
      { active := (ledger cfg h).active ∪ {x | x ∈ activeNow cfg s}
        entries := (ledger cfg h).entries ∪ {x | x ∈ acknowledgedNow cfg s} } := by
  have hactive : (ledger cfg (s :: h)).active =
      (ledger cfg h).active ∪ {x | x ∈ activeNow cfg s} := by
    ext x
    simp only [ledger, Set.mem_union, Set.mem_ofPred_eq, mem_activeNow, List.mem_cons,
      exists_eq_or_imp]
    exact or_comm
  have hentries : (ledger cfg (s :: h)).entries =
      (ledger cfg h).entries ∪ {x | x ∈ acknowledgedNow cfg s} := by
    ext x
    simp only [ledger, Set.mem_union, Set.mem_ofPred_eq, mem_acknowledgedNow, List.mem_cons,
      exists_eq_or_imp]
    exact or_comm
  rw [← hactive, ← hentries]

/-! ## Runs -/

theorem ledger_init (cfg : Config) : ledger cfg [(system cfg).init] = Ledger.system.init := by
  have hok := Ok.init cfg
  have hactive : (ledger cfg [(system cfg).init]).active = ∅ := by
    refine Set.eq_empty_of_forall_notMem fun x ⟨s, hs, hi, hact, _⟩ => ?_
    rw [List.mem_singleton.1 hs] at hact
    have hleader := (hok.nodes x.2 hi).aligned.isActivated.1 hact
    have hstate : ((system cfg).init.core x.2).state = .follower :=
      congrArg Core.state (init_core cfg x.2)
    cases hleader.symm.trans hstate
  have hentries : (ledger cfg [(system cfg).init]).entries = ∅ := by
    refine Set.eq_empty_of_forall_notMem fun x ⟨s, hs, i, _, _, promise, he⟩ => ?_
    rw [List.mem_singleton.1 hs] at he
    have hmem : .resolved promise ⟨x.2.1, x.2.2, true⟩ ∈ ((Cluster.init cfg).nodes i).visible :=
      List.mem_filter.2 ⟨he, rfl⟩
    rw [init_visible] at hmem
    cases hmem
  exact congrArg₂ Ledger.mk hactive hentries

/-- Active nodes of one term are the same node. -/
theorem active_unique (hr : ClusterRun cfg (Avoids Node.Wraps) h) {x : Nat × Nat} {i : Nat}
    (hx : x ∈ (ledger cfg h).active) (hi : (x.1, i) ∈ (ledger cfg h).active) : i = x.2 := by
  obtain ⟨t, ht, hi, hact, hterm⟩ := hi
  obtain ⟨t', ht', hi', hact', hterm'⟩ := hx
  have hl := ((ClusterRun.ok hr t ht).nodes _ hi).aligned.isActivated.1 hact
  have hl' := ((ClusterRun.ok hr t' ht').nodes _ hi').aligned.isActivated.1 hact'
  exact leaders_eq hr ht ht' hi hi' hl hl' (hterm.trans hterm'.symm)

/-- Acknowledged commands of one id are the same command. -/
theorem acknowledged_unique (hsize : 2 ≤ cfg.ids.length) (hr : ClusterRun cfg Sound (s :: h))
    {x : Nat × Nat × Option Command} {t : Nat} {command : Option Command}
    (hx : x ∈ (ledger cfg (s :: h)).entries)
    (hc : (t, x.2.1, command) ∈ (ledger cfg (s :: h)).entries) : command = x.2.2 := by
  obtain ⟨u, hu, i, hi, -, promise, he⟩ := hx
  obtain ⟨u', hu', i', hi', -, promise', he'⟩ := hc
  obtain ⟨e, hacked, -⟩ := exists_acked_earlier hsize hr hu hi he
  obtain ⟨e', hacked', -⟩ := exists_acked_earlier hsize hr hu' hi' he'
  have heq := hacked.chosen.unique (hr.mono fun _ _ hok => hok.2) hacked'.chosen
    (hacked.id.trans hacked'.id.symm)
  exact hacked'.command.symm.trans (heq ▸ hacked.command)

/-- A run whose user's callbacks leave the nodes alone refines the ledger. -/
theorem refines_ledger (cfg : Config) (hsize : 2 ≤ cfg.ids.length) :
    (system cfg).Refines Sound Ledger.system (ledger cfg) (Reads cfg) Ledger.Allows where
  init := ledger_init cfg
  step s a s' h hr ha hs := by
    have hr' : ClusterRun cfg Sound (s' :: s :: h) := .step hr ha hs
    have hwraps : ClusterRun cfg (Avoids Node.Wraps) (s' :: s :: h) :=
      hr'.mono fun _ _ hok => hok.2.steady.1
    rw [ledger_cons s']
    -- the newly active nodes first: an acknowledging node is one of the active nodes
    refine (Ledger.steps_activate _ (activeNow cfg s') fun x hx i hi => ?_).trans
      (Ledger.steps_acknowledge _ (acknowledgedNow cfg s') fun x hx => ⟨?_, ?_⟩)
    · refine active_unique hwraps ?_ ?_
      · rw [ledger_cons s']
        exact .inr hx
      · rw [ledger_cons s']
        exact hi
    · obtain ⟨i, hi, hterm, promise, he⟩ := mem_acknowledgedNow.1 hx
      obtain ⟨e, hacked, -⟩ := exists_acked_earlier hsize hr' (.head _) hi he
      have hact := ((ClusterRun.ok hr' s' (.head _)).nodes i hi).aligned.isActivated.2 hacked.leads
      exact ⟨i, .inr (mem_activeNow.2 ⟨hi, hact, hterm⟩)⟩
    · intro t c hc
      refine acknowledged_unique hsize hr' ?_ ?_ (x := x) (t := t)
      · rw [ledger_cons s']
        exact .inr hx
      · rw [ledger_cons s']
        exact hc
  observe s h r hr hread := by
    intro term command hentry hle
    obtain ⟨t, ht, i, hi, hterm, promise, he⟩ := hentry
    obtain ⟨b, hb, hact, hbterm, hget⟩ := hread
    rw [← hget]
    refine acked_read hsize hr ht hi he hb
      (((ClusterRun.ok hr s (.head _)).nodes b hb).aligned.isActivated.1 hact) ?_
    change (t.nodes i).store.currentTerm ≤ (s.nodes b).store.currentTerm
    rw [hterm, hbterm]
    exact hle

/-! ## Users -/

/-- A run with users shows the same as the run it shows as. -/
theorem Shows.ledger_eq (hsize : 2 ≤ cfg.ids.length) {k : List Cluster}
    (hs : Shows cfg Sound h k) (hk : ClusterRun cfg Sound k) : ledger cfg h = ledger cfg k := by
  have hactive : ∀ {s t : Cluster}, Alike cfg s t → ∀ i,
      (s.nodes i).isActivated = (t.nodes i).isActivated ∧
        (s.nodes i).store.currentTerm = (t.nodes i).store.currentTerm := by
    intro s t halike i
    rw [halike.node]
    exact ⟨rfl, rfl⟩
  have h1 : (ledger cfg h).active = (ledger cfg k).active := by
    ext x
    constructor
    · rintro ⟨s, hs', hi, hact, hterm⟩
      obtain ⟨t, ht, halike⟩ := hs.mem_alike s hs'
      obtain ⟨h1, h2⟩ := hactive halike x.2
      exact ⟨t, ht, hi, h1 ▸ hact, h2 ▸ hterm⟩
    · rintro ⟨w, hw, hi, hact, hterm⟩
      obtain ⟨s, hs', hb⟩ := hs.mem_below w hw
      obtain ⟨t, ht, halike⟩ := hs.mem_alike s hs'
      obtain ⟨h1, -⟩ := hactive halike x.2
      have hl := ((ClusterRun.ok hk w hw).nodes _ hi).aligned.isActivated.1 hact
      refine ⟨s, hs', hi, h1 ▸ ((ClusterRun.ok hk t ht).nodes _ hi).aligned.isActivated.2 ?_, ?_⟩
      · rw [← hl, hb.state, halike.node]
      · rw [← hb.term, hterm]
  have h2 : (ledger cfg h).entries = (ledger cfg k).entries := by
    ext x
    constructor
    · rintro ⟨s, hs', i, hi, hterm, promise, he⟩
      obtain ⟨w, hw, hack, hwterm⟩ := hs.acks hsize s hs' i promise _ _ he
      exact ⟨w, hw, i, hi, hwterm.trans hterm, promise, hack⟩
    · rintro ⟨w, hw, i, hi, hterm, promise, he⟩
      obtain ⟨s, hs', hb⟩ := hs.mem_below w hw
      exact ⟨s, hs', i, hi, (hb.term i).symm.trans hterm, promise, hb.acks hsize i hi _ _ _ he⟩
  exact congrArg₂ Ledger.mk h1 h2

end Cluster

/-- **The cluster refines the ledger**, in every run, with users that call back, in which answers
are counted right, leaders are complete, and no user calls back for a commit that fails because its
leader steps down. -/
theorem cluster_refines_ledger (cfg : Config) (hsize : 2 ≤ cfg.ids.length) :
    (Cluster.users cfg).Refines (Cluster.WithUsers Cluster.Sound) Ledger.system
      (Cluster.ledger cfg) (Cluster.Reads cfg) Ledger.Allows where
  init := Cluster.ledger_init cfg
  step s a s' h hr ha hs := by
    have hr' : UserRun cfg (Cluster.WithUsers Cluster.Sound) (s' :: s :: h) := .step hr ha hs
    obtain ⟨k, hk, hshow⟩ := Cluster.exists_shown (Cluster.Sound.unaffected cfg) hr'
    rw [hshow.ledger_eq hsize hk]
    cases hshow with
    | step hprev hrun _ _ _ _ _ =>
      rw [hprev.ledger_eq hsize hrun]
      exact (Cluster.refines_ledger cfg hsize).steps_of_suffix hk (List.suffix_append ..) (by simp)
  observe s h r hr hread := by
    obtain ⟨k, hk, hshow⟩ := Cluster.exists_shown (Cluster.Sound.unaffected cfg) hr
    rw [hshow.ledger_eq hsize hk]
    obtain ⟨t, k, rfl, halike⟩ := hshow.head
    obtain ⟨b, hb, hact, hterm, hget⟩ := hread
    rw [halike.node] at hact hterm hget
    exact (Cluster.refines_ledger cfg hsize).observe t k r hk ⟨b, hb, hact, hterm, hget⟩

/-- Two nodes: node 0, active in term 1, acknowledges `[1]` for id 0, and `[2]`, which its user
commits then, for id 1, and the ledger comes to that in steps of its own. -/
theorem cluster_refines_ledger_second_entry :
    ∃ h, UserRun (.range 2 (by decide)) (Cluster.WithUsers Cluster.Sound) h ∧
      (1, 0, some [1]) ∈ (Cluster.ledger (.range 2 (by decide)) h).entries ∧
      (1, 1, some [2]) ∈ (Cluster.ledger (.range 2 (by decide)) h).entries ∧
      Ledger.system.Steps Ledger.system.init (Cluster.ledger (.range 2 (by decide)) h) ∧
      (Cluster.ledger (.range 2 (by decide)) h).Unique := by
  obtain ⟨h, hr, hc⟩ := UserRun.exists_onward (.range 2 (by decide)) Cluster.Sound
    [.electionTimer 0, .deliver 0, .deliver 0, .broadcastTimer 0, .deliver 0, .deliver 0,
      .commitCommand 0 [1], .broadcastTimer 0, .deliver 0, .deliver 0, .broadcastTimer 0,
      .deliver 0, .deliver 0]
    (fun h => (h.any fun s => decide ((s.nodes 0).store.currentTerm = 1 ∧
        .resolved 0 ⟨0, some [1], true⟩ ∈ (s.nodes 0).trace)) &&
      h.any fun s => decide ((s.nodes 0).store.currentTerm = 1 ∧
        .resolved 1 ⟨1, some [2], true⟩ ∈ (s.nodes 0).trace))
    (by decide +kernel)
  simp only [Bool.and_eq_true, List.any_eq_true, decide_eq_true_eq] at hc
  obtain ⟨⟨s, hs, hterm, he⟩, s', hs', hterm', he'⟩ := hc
  have href := cluster_refines_ledger (.range 2 (by decide)) (by decide)
  exact ⟨h, hr, ⟨s, hs, 0, by decide, hterm, 0, he⟩, ⟨s', hs', 0, by decide, hterm', 1, he'⟩,
    href.steps hr, href.invariant .init (fun _ _ _ => .step) hr⟩

end Foros
