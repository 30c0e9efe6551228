import Foros.Cluster.Proof.Completeness

/-!
# Agreement on acknowledged commands

An entry whose commit was acknowledged has been appended by a majority and stands in a view of its
leader (`acked`). Of two acknowledged entries with the same id, the leader of the newer one held the
older one, and the views of one term are comparable, so they are the same entry. This holds of runs
with users who call back (`acks_agree`), through the runs they show as.
-/

namespace Foros

namespace Cluster

variable {cfg : Config} {s s' : Cluster} {a : Action} {h : List Cluster}

/-- Answers are counted right, and leaders are complete. -/
def Sound (s : Cluster) (a : Action) : Prop := Counted s a ∧ Safe s a

instance (s : Cluster) (a : Action) : Decidable (Sound s a) := by
  unfold Sound
  infer_instance

/-- At most one command is acknowledged for an id, over all nodes and moments of a run. -/
def AcksAgree (cfg : Config) (h : List Cluster) : Prop :=
  ∀ s ∈ h, ∀ s' ∈ h, ∀ i ∈ cfg.ids, ∀ j ∈ cfg.ids,
    ∀ (promise promise' id : Nat) (command command' : Option Command),
      .resolved promise ⟨id, command, true⟩ ∈ (s.nodes i).trace →
      .resolved promise' ⟨id, command', true⟩ ∈ (s'.nodes j).trace → command = command'

/-- An entry that a majority has appended, in a view of its leader. -/
structure Chosen (cfg : Config) (h : List Cluster) (e : LogEntry) : Prop where
  holders : cfg.ids.length / 2 + 1 ≤ holders cfg h e
  led : ∃ V, Led cfg h e.term V ∧ V[e.id]? = some e

theorem holders_cons (e : LogEntry) : holders cfg h e ≤ holders cfg (s :: h) e :=
  List.countP_mono_left fun _ _ hj => decide_eq_true (of_decide_eq_true hj).cons

theorem Chosen.cons {e : LogEntry} (hc : Chosen cfg h e) : Chosen cfg (s :: h) e := by
  obtain ⟨V, hV, he⟩ := hc.led
  exact ⟨Nat.le_trans hc.holders (holders_cons e), V, hV.mono fun _ hm => .tail _ hm, he⟩

theorem init_visible (cfg : Config) (i : Nat) : ((Cluster.init cfg).nodes i).visible = [] := by
  obtain ⟨-, -, hvis, -⟩ := Node.create_spec ContextStore.empty_ok.holds cfg.ids i
  rw [ContextStore.empty_db] at hvis
  exact hvis

/-- A promise resolved with success by the latest callback of node `i`. -/
theorem acked_step (hsize : 2 ≤ cfg.ids.length) (hr : ClusterRun cfg Sound (s :: h))
    (ha : Sound s a) (hs : step cfg s a = some s') {i : Nat} (hi : i ∈ cfg.ids)
    {promise id : Nat} {command : Option Command}
    (he : .resolved promise ⟨id, command, true⟩ ∈ (s'.nodes i).visible) :
    s'.nodes i = s.nodes i ∨
      ∃ e : LogEntry, e.id = id ∧ e.command = command ∧ Chosen cfg (s' :: s :: h) e := by
  have hok := ClusterRun.ok hr s (.head _)
  obtain ⟨hm, hok'⟩ := hok.move hs
  cases hm with
  | @callback j inp client net es _ hh hsrc hstep hes hothers _ _ =>
    by_cases hij : i = j
    · subst hij
      rw [hes] at he
      have hcount : ClusterRun cfg Counted (s :: h) := hr.mono fun _ _ hok => hok.1
      obtain ⟨commit, -, hid, hcmd, hmaj, hl, hT, hmem⟩ :=
        ack_of_step hcount ha.1.2 hsize hi hh hsrc hstep he
      refine .inr ⟨commit.log, hid, hcmd, hmaj, _, ⟨s', .head _, i, hi, hl, hT, rfl⟩, ?_⟩
      have hview := (hok'.nodes i hi).core.view.ordered.indexed
      exact hview.mem_iff.1 ((s'.core i).logs_prefix_view.subset hmem)
    · exact .inl (hothers i hij)
  | drop _ hn _ _ => exact .inl (congrFun hn i)
  | @restart j _ _ _ hnone hothers _ _ =>
    by_cases hij : i = j
    · subst hij
      rw [hnone] at he
      cases he
    · exact .inl (hothers i hij)

/-- **An acknowledged entry is chosen.** -/
theorem acked (hsize : 2 ≤ cfg.ids.length) (hr : ClusterRun cfg Sound h) :
    ∀ s ∈ h, ∀ i ∈ cfg.ids, ∀ (promise id : Nat) (command : Option Command),
      .resolved promise ⟨id, command, true⟩ ∈ (s.nodes i).visible →
      ∃ e : LogEntry, e.id = id ∧ e.command = command ∧ Chosen cfg h e := by
  refine hr.history (P := fun h => ∀ s ∈ h, ∀ i ∈ cfg.ids, ∀ (promise id : Nat)
    (command : Option Command), .resolved promise ⟨id, command, true⟩ ∈ (s.nodes i).visible →
    ∃ e : LogEntry, e.id = id ∧ e.command = command ∧ Chosen cfg h e) ?_ ?_
  · intro s hs i _ promise id command he
    rw [List.mem_singleton.1 hs] at he
    rw [show ((system cfg).init.nodes i).visible = [] from init_visible cfg i] at he
    cases he
  · intro s a s' h hr ih ha hs t ht i hi promise id command he
    have hold : ∀ t ∈ s :: h, .resolved promise ⟨id, command, true⟩ ∈ (t.nodes i).visible →
        ∃ e : LogEntry, e.id = id ∧ e.command = command ∧ Chosen cfg (s' :: s :: h) e := by
      intro t ht he
      obtain ⟨e, hid, hcmd, hc⟩ := ih t ht i hi promise id command he
      exact ⟨e, hid, hcmd, hc.cons⟩
    rcases List.mem_cons.1 ht with rfl | ht
    · rcases acked_step hsize hr ha hs hi he with hsame | hnew
      · exact hold s (.head _) (hsame ▸ he)
      · exact hnew
    · exact hold t ht he

/-- A chosen entry is in every view of a newer term. -/
theorem Chosen.led_newer (hr : ClusterRun cfg Safe h) {e : LogEntry} (hc : Chosen cfg h e)
    {τ : Nat} {V : List LogEntry} (hV : Led cfg h τ V) (hlt : e.term < τ) : V[e.id]? = some e := by
  obtain ⟨w, hw, b, hb, hl, rfl, rfl⟩ := hV
  obtain ⟨t', t, h', hsuf, hel, hterm, hpre⟩ :=
    exists_elected (hr.mono fun _ _ hok => hok.steady) hw hb hl
  have hget := elected_complete hr hc.holders _ t' t h' b hsuf hb hel hterm hlt
  rw [Lib.getElem?_of_prefix hpre (List.getElem?_eq_some_iff.1 hget).1, hget]

/-- **Two chosen entries with the same id are the same.** -/
theorem Chosen.unique (hr : ClusterRun cfg Safe h) {e e' : LogEntry} (hc : Chosen cfg h e)
    (hc' : Chosen cfg h e') (hid : e.id = e'.id) : e = e' := by
  obtain ⟨V, hV, he⟩ := hc.led
  obtain ⟨V', hV', he'⟩ := hc'.led
  rcases Nat.lt_trichotomy e.term e'.term with hlt | heq | hgt
  · have hnew := hc.led_newer hr hV' hlt
    rw [hid, he'] at hnew
    exact (Option.some.inj hnew).symm
  · rw [← heq] at hV'
    rw [hid] at he
    have hsteady : ClusterRun cfg Steady h := hr.mono fun _ _ hok => hok.steady
    rcases Led.comparable hsteady _ _ _ hV hV' with hpre | hpre
    · rw [Lib.getElem?_of_prefix hpre (List.getElem?_eq_some_iff.1 he).1, he] at he'
      exact Option.some.inj he'
    · rw [Lib.getElem?_of_prefix hpre (List.getElem?_eq_some_iff.1 he').1, he'] at he
      exact (Option.some.inj he).symm
  · have hnew := hc'.led_newer hr hV hgt
    rw [← hid, he] at hnew
    exact Option.some.inj hnew

theorem Sound.unaffected (cfg : Config) : Unaffected cfg Sound where
  alike hst hc := ⟨(Counted.unaffected cfg).alike hst hc.1, (Safe.unaffected cfg).alike hst hc.2⟩
  call s i command :=
    ⟨(Counted.unaffected cfg).call s i command, (Safe.unaffected cfg).call s i command⟩
  steady hc := hc.2.steady

end Cluster

/-- **Agreement on acknowledged commands**, in every run, with users that call back, in which
answers are counted right, leaders are complete, and no user calls back for a commit that fails
because its leader steps down. -/
theorem acks_agree {cfg : Config} {h : List Cluster} (hsize : 2 ≤ cfg.ids.length)
    (hr : UserRun cfg (Cluster.WithUsers Cluster.Sound) h) : Cluster.AcksAgree cfg h := by
  obtain ⟨k, hk, hshow⟩ := Cluster.exists_shown (Cluster.Sound.unaffected cfg) hr
  intro s hs s' hs' i hi j hj promise promise' id command command' he he'
  -- the run without the calls acknowledges the two commits as well
  obtain ⟨w, hw, hack, -⟩ := hshow.acks hsize s hs i promise id command he
  obtain ⟨w', hw', hack', -⟩ := hshow.acks hsize s' hs' j promise' id command' he'
  obtain ⟨e, hid, hcmd, hc⟩ :=
    Cluster.acked hsize hk w hw i hi promise id command (List.mem_filter.2 ⟨hack, rfl⟩)
  obtain ⟨e', hid', hcmd', hc'⟩ :=
    Cluster.acked hsize hk w' hw' j hj promise' id command' (List.mem_filter.2 ⟨hack', rfl⟩)
  have hsafe : ClusterRun cfg Cluster.Safe k := hk.mono fun _ _ hok => hok.2
  rw [← hcmd, ← hcmd', Cluster.Chosen.unique hsafe hc hc' (hid.trans hid'.symm)]

/-- Two nodes: `[1]` is accepted by the follower and acknowledged, and so is `[2]`, which the user
commits when it hears of that. -/
theorem acks_agree_second_entry :
    ∃ h, UserRun (.range 2 (by decide)) (Cluster.WithUsers Cluster.Sound) h ∧
      (∃ s ∈ h, .resolved 0 ⟨0, some [1], true⟩ ∈ (s.nodes 0).trace) ∧
      (∃ s ∈ h, .resolved 1 ⟨1, some [2], true⟩ ∈ (s.nodes 0).trace) ∧
      Cluster.AcksAgree (.range 2 (by decide)) h := by
  obtain ⟨h, hr, hc⟩ := UserRun.exists_onward (.range 2 (by decide)) Cluster.Sound
    [.electionTimer 0, .deliver 0, .deliver 0, .broadcastTimer 0, .deliver 0, .deliver 0,
      .commitCommand 0 [1], .broadcastTimer 0, .deliver 0, .deliver 0, .broadcastTimer 0,
      .deliver 0, .deliver 0]
    (fun h => (h.any fun s => decide (.resolved 0 ⟨0, some [1], true⟩ ∈ (s.nodes 0).trace)) &&
      h.any fun s => decide (.resolved 1 ⟨1, some [2], true⟩ ∈ (s.nodes 0).trace))
    (by decide +kernel)
  simp only [Bool.and_eq_true, List.any_eq_true, decide_eq_true_eq] at hc
  exact ⟨h, hr, hc.1, hc.2, acks_agree (by decide) hr⟩

/-- Two nodes: a rejected heartbeat completes `[1]` on node 0 in term 1, node 1 is elected with an
empty log, and a rejected heartbeat completes `[2]` with the same id on node 1 in term 2. -/
theorem acks_disagree :
    ∃ h, UserRun (.range 2 (by decide)) (fun _ a => a.1 = .plain) h ∧
      ¬ Cluster.AcksAgree (.range 2 (by decide)) h := by
  obtain ⟨h, hr, hc⟩ := Lib.System.exists_run (S := Cluster.system (.range 2 (by decide)))
    (fun _ _ => True)
    [.electionTimer 0, .deliver 0, .deliver 0, .broadcastTimer 0, .deliver 0, .commitCommand 0 [1],
      .deliver 0, .electionTimer 1, .electionTimer 1, .deliver 0, .deliver 0, .broadcastTimer 1,
      .deliver 0, .commitCommand 1 [2], .deliver 0]
    (fun h => (h.any fun s => decide (.resolved 0 ⟨0, some [1], true⟩ ∈ (s.nodes 0).trace)) &&
      h.any fun s => decide (.resolved 0 ⟨0, some [2], true⟩ ∈ (s.nodes 1).trace))
    (by decide +kernel)
  refine ⟨h, (ClusterRun.users hr).mono fun _ _ ha => ha.1, fun hagree => ?_⟩
  simp only [Bool.and_eq_true, List.any_eq_true, decide_eq_true_eq] at hc
  obtain ⟨⟨s, hs, he⟩, s', hs', he'⟩ := hc
  have heq := hagree s hs s' hs' 0 (by decide) 1 (by decide) 0 0 0 (some [1]) (some [2]) he he'
  exact absurd heq (by decide)

end Foros
