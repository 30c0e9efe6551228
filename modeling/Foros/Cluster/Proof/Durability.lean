import Foros.Cluster.Proof.Agreement
import Foros.Cluster.Proof.Local

/-!
# Acknowledged commands last

A chosen entry is in every leader of a newer term, so no request takes it out of a log that has it
(`Chosen.kept`), and the majority that has appended it has it for good. After a commit has been
acknowledged, at every later moment, crashes included, a majority of the nodes answers
`get_command` with the acknowledged command, and so does every active node whose term is not older
than that of the node that acknowledged it (`acks_durable`).
-/

namespace Foros

namespace Cluster

variable {cfg : Config} {s s' : Cluster} {a : Action} {h h' : List Cluster} {e : LogEntry}

/-! ## Chosen entries -/

theorem Chosen.of_suffix (hc : Chosen cfg h' e) (hs : h' <:+ h) : Chosen cfg h e := by
  obtain ⟨V, hV, he⟩ := hc.led
  refine ⟨Nat.le_trans hc.holders (List.countP_mono_left fun j _ hj => ?_), V,
    hV.mono fun _ hm => hs.subset hm, he⟩
  obtain ⟨t, ht, hmem⟩ := of_decide_eq_true hj
  exact decide_eq_true ⟨t, hs.subset ht, hmem⟩

/-- **A chosen entry is never taken out of a log.** -/
theorem Chosen.kept (hr : ClusterRun cfg Safe h) (hc : Chosen cfg h e) :
    h.Pairwise fun newer older =>
      ∀ i ∈ cfg.ids, e ∈ (older.core i).logs → e ∈ (newer.core i).logs := by
  refine hr.pairwise_of_suffix (fun _ _ _ h1 h2 i hi he => h2 i hi (h1 i hi he))
    fun s a s' k hsuf hk ha hs i hi he => ?_
  refine keep_step hk ha hs (fun τ V h1 _ hV => ?_) hi (Nat.le_refl _) he
  exact hc.led_newer hr (hV.mono fun _ hm => hsuf.subset (.tail _ hm)) h1

theorem Chosen.mem_newest (hr : ClusterRun cfg Safe (s :: h)) (hc : Chosen cfg (s :: h) e)
    {t : Cluster} (ht : t ∈ s :: h) {i : Nat} (hi : i ∈ cfg.ids) (he : e ∈ (t.core i).logs) :
    e ∈ (s.core i).logs :=
  Lib.System.le_newest (hc.kept hr) (fun _ _ _ hm => hm) ht i hi he

/-- A majority has a chosen entry at once. -/
theorem Chosen.majority (hr : ClusterRun cfg Safe (s :: h)) (hc : Chosen cfg (s :: h) e) :
    cfg.ids.length / 2 + 1 ≤ cfg.ids.countP fun j => decide (e ∈ (s.core j).logs) := by
  refine Nat.le_trans hc.holders (List.countP_mono_left fun j hj hheld => ?_)
  obtain ⟨t, ht, he⟩ := of_decide_eq_true hheld
  exact decide_eq_true (hc.mem_newest hr ht hj he)

/-- A leader of a newer term has a chosen entry in its log. -/
theorem Chosen.mem_leader (hr : ClusterRun cfg Safe (s :: h)) (hc : Chosen cfg (s :: h) e)
    {b : Nat} (hb : b ∈ cfg.ids) (hl : (s.core b).state = .leader)
    (hlt : e.term < (s.core b).term) : e ∈ (s.core b).logs := by
  have hsteady : ClusterRun cfg Steady (s :: h) := hr.mono fun _ _ hok => hok.steady
  obtain ⟨t', t, k, hsuf, hel, hterm, -⟩ := exists_elected hsteady (.head _) hb hl
  have hget := elected_complete hr hc.holders _ t' t k b hsuf hb hel hterm hlt
  exact hc.mem_newest hr (hsuf.subset (.head _)) hb (List.mem_of_getElem? hget)

/-! ## Acknowledged entries -/

/-- The node has acknowledged the entry as the leader of its term, and has it. -/
structure Acked (cfg : Config) (h : List Cluster) (c : Core) (id : Nat)
    (command : Option Command) (e : LogEntry) : Prop where
  id : e.id = id
  command : e.command = command
  chosen : Chosen cfg h e
  leads : c.state = .leader
  term : c.term = e.term
  mem : e ∈ c.logs

/-- **What an acknowledgement says.** -/
theorem exists_acked (hsize : 2 ≤ cfg.ids.length) (hr : ClusterRun cfg Sound (s :: h)) :
    ∀ i ∈ cfg.ids, ∀ (promise id : Nat) (command : Option Command),
      .resolved promise ⟨id, command, true⟩ ∈ (s.nodes i).visible →
      ∃ e, Acked cfg (s :: h) (s.core i) id command e := by
  refine hr.history (P := fun
    | [] => True
    | s :: h => ∀ i ∈ cfg.ids, ∀ (promise id : Nat) (command : Option Command),
        .resolved promise ⟨id, command, true⟩ ∈ (s.nodes i).visible →
        ∃ e, Acked cfg (s :: h) (s.core i) id command e) ?_ ?_
  · intro i _ promise id command he
    rw [show ((system cfg).init.nodes i).visible = [] from init_visible cfg i] at he
    cases he
  · intro s a s' h hr ih ha hs i hi promise id command he
    have hok := ClusterRun.ok hr s (.head _)
    cases (hok.move hs).1.node i with
    | same hn =>
      obtain ⟨e, hid, hcmd, hc, hl, hT, hmem⟩ := ih i hi promise id command (hn ▸ he)
      rw [core_eq hn]
      exact ⟨e, hid, hcmd, hc.cons, hl, hT, hmem⟩
    | callback hh hsrc hstep hes =>
      rw [hes] at he
      have hcount : ClusterRun cfg Counted (s :: h) := hr.mono fun _ _ hok => hok.1
      obtain ⟨commit, -, hid, hcmd, hmaj, hl, hT, hmem⟩ :=
        ack_of_step hcount ha.1.2 hsize hi hh hsrc hstep he
      refine ⟨commit.log, hid, hcmd, ⟨hmaj, _, ⟨s', .head _, i, hi, hl, hT, rfl⟩, ?_⟩, hl, hT,
        hmem⟩
      have hview := ((hok.move hs).2.nodes i hi).core.view.ordered.indexed
      exact hview.mem_iff.1 ((s'.core i).logs_prefix_view.subset hmem)
    | restart _ _ hnone =>
      rw [hnone] at he
      cases he

theorem getCommand_of_mem {i : Nat} (hok : Ok cfg s) (hi : i ∈ cfg.ids)
    (he : e ∈ (s.core i).logs) : (s.nodes i).getCommand e.id = e.command := by
  have hget : (s.core i).logs[e.id]? = some e :=
    (hok.nodes i hi).core.logs.ordered.indexed.mem_iff.1 he
  change ((s.core i).logs[e.id]?).bind (·.command) = _
  rw [hget]
  rfl

/-- What an acknowledgement of the past says now: the entry is chosen, the acknowledging node led
its term, and has it still. -/
theorem exists_acked_earlier (hsize : 2 ≤ cfg.ids.length) (hr : ClusterRun cfg Sound (s :: h))
    {t : Cluster} (ht : t ∈ s :: h) {i : Nat} (hi : i ∈ cfg.ids) {promise id : Nat}
    {command : Option Command}
    (he : .resolved promise ⟨id, command, true⟩ ∈ (t.nodes i).trace) :
    ∃ e, Acked cfg (s :: h) (t.core i) id command e ∧ e ∈ (s.core i).logs := by
  obtain ⟨newer, older, hsplit⟩ := List.append_of_mem ht
  have hsuf : t :: older <:+ s :: h := ⟨newer, hsplit.symm⟩
  obtain ⟨e, hid, hcmd, hc, hl, hT, hmem⟩ := exists_acked hsize (hr.of_suffix hsuf (by simp)) i hi
    promise id command (List.mem_filter.2 ⟨he, rfl⟩)
  have hchosen := hc.of_suffix hsuf
  exact ⟨e, ⟨hid, hcmd, hchosen, hl, hT, hmem⟩,
    hchosen.mem_newest (hr.mono fun _ _ hok => hok.2) ht hi hmem⟩

/-- **A leader gives what has been acknowledged** in its term or an older one. -/
theorem acked_read (hsize : 2 ≤ cfg.ids.length) (hr : ClusterRun cfg Sound (s :: h))
    {t : Cluster} (ht : t ∈ s :: h) {i : Nat} (hi : i ∈ cfg.ids) {promise id : Nat}
    {command : Option Command} (he : .resolved promise ⟨id, command, true⟩ ∈ (t.nodes i).trace)
    {b : Nat} (hb : b ∈ cfg.ids) (hl : (s.core b).state = .leader)
    (hle : (t.core i).term ≤ (s.core b).term) : (s.nodes b).getCommand id = command := by
  have hsafe : ClusterRun cfg Safe (s :: h) := hr.mono fun _ _ hok => hok.2
  obtain ⟨e, hacked, hmem⟩ := exists_acked_earlier hsize hr ht hi he
  rw [← hacked.id, ← hacked.command]
  refine getCommand_of_mem (ClusterRun.ok hr s (.head _)) hb ?_
  rw [hacked.term] at hle
  rcases Nat.lt_or_eq_of_le hle with hlt | heq
  · exact hacked.chosen.mem_leader hsafe hb hl hlt
  · -- the same term has the same leader
    have hwraps : ClusterRun cfg (Avoids Node.Wraps) (s :: h) :=
      hsafe.mono fun _ _ hok => hok.steady.1
    obtain rfl : i = b :=
      leaders_eq hwraps ht (.head _) hi hb hacked.leads hl (hacked.term.trans heq)
    exact hmem

/-- An acknowledged command is with a majority, and with every active node whose term is not
older. -/
theorem acked_lasts (hsize : 2 ≤ cfg.ids.length) (hr : ClusterRun cfg Sound (s :: h))
    {t : Cluster} (ht : t ∈ s :: h) {i : Nat} (hi : i ∈ cfg.ids) {promise id : Nat}
    {command : Option Command} (he : t.Acks i promise id command) :
    (cfg.ids.length / 2 + 1 ≤
      cfg.ids.countP fun j => decide ((s.nodes j).getCommand id = command)) ∧
    ∀ b ∈ cfg.ids, (s.nodes b).isActivated = true →
      (t.nodes i).store.currentTerm ≤ (s.nodes b).store.currentTerm →
      (s.nodes b).getCommand id = command := by
  have hok := ClusterRun.ok hr s (.head _)
  constructor
  · obtain ⟨e, hacked, -⟩ := exists_acked_earlier hsize hr ht hi he
    rw [← hacked.id, ← hacked.command]
    refine Nat.le_trans (hacked.chosen.majority (hr.mono fun _ _ hok => hok.2))
      (List.countP_mono_left fun j hj hheld => ?_)
    exact decide_eq_true (getCommand_of_mem hok hj (of_decide_eq_true hheld))
  · intro b hb hactive hle
    exact acked_read hsize hr ht hi he hb ((hok.nodes b hb).aligned.isActivated.1 hactive) hle

end Cluster

/-- **Acknowledged commands last**, in every run, with users that call back, in which answers are
counted right, leaders are complete, and no user calls back for a commit that fails because its
leader steps down: once a commit has been acknowledged, a majority of the nodes and every active
node whose term is not older give its command for its id. -/
theorem acks_durable {cfg : Config} {u : Cluster} {k : List Cluster} (hsize : 2 ≤ cfg.ids.length)
    (hr : UserRun cfg (Cluster.WithUsers Cluster.Sound) (u :: k)) {s : Cluster} (hs : s ∈ u :: k)
    {i : Nat} (hi : i ∈ cfg.ids) {promise id : Nat} {command : Option Command}
    (he : .resolved promise ⟨id, command, true⟩ ∈ (s.nodes i).trace) :
    (cfg.ids.length / 2 + 1 ≤
      cfg.ids.countP fun j => decide ((u.nodes j).getCommand id = command)) ∧
    ∀ b ∈ cfg.ids, (u.nodes b).isActivated = true →
      (s.nodes i).store.currentTerm ≤ (u.nodes b).store.currentTerm →
      (u.nodes b).getCommand id = command := by
  obtain ⟨m, hm, hshow⟩ := Cluster.exists_shown (Cluster.Sound.unaffected cfg) hr
  obtain ⟨w, hw, hack, hterm⟩ := hshow.acks hsize s hs i promise id command he
  obtain ⟨v, m, rfl, halike⟩ := hshow.head
  have hlast := Cluster.acked_lasts hsize hm hw hi hack
  have hget : ∀ j, (u.nodes j).getCommand id = (v.nodes j).getCommand id := fun j => by
    rw [halike.node]
    rfl
  simp only [hget]
  refine ⟨hlast.1, fun b hb hactive hle => hlast.2 b hb ?_ ?_⟩
  · rw [halike.node] at hactive
    exact hactive
  · rw [hterm, show (v.nodes b).store.currentTerm = (u.nodes b).store.currentTerm by
      rw [halike.node]]
    exact hle

/-- Three nodes: node 0 acknowledges `[1]` in term 1, and node 1, active in term 2, gives it. -/
theorem acks_durable_second_term :
    ∃ u k, UserRun (.range 3 (by decide)) (Cluster.WithUsers Cluster.Sound) (u :: k) ∧
      (∃ s ∈ u :: k, .resolved 0 ⟨0, some [1], true⟩ ∈ (s.nodes 0).trace) ∧
      (u.nodes 1).isActivated = true ∧ (u.nodes 1).store.currentTerm = 2 ∧
      (u.nodes 1).getCommand 0 = some [1] := by
  obtain ⟨h, hr, hc⟩ := UserRun.exists_onward (.range 3 (by decide)) Cluster.Sound
    [.electionTimer 0, .deliver 0, .lose 0, .deliver 0, .broadcastTimer 0, .lose 1, .deliver 0,
      .deliver 0, .commitCommand 0 [1], .broadcastTimer 0, .lose 1, .deliver 0, .deliver 0,
      .electionTimer 1, .electionTimer 1, .deliver 1, .deliver 1]
    (fun
      | u :: k => ((u :: k).any fun s => decide ((s.nodes 0).store.currentTerm = 1 ∧
          .resolved 0 ⟨0, some [1], true⟩ ∈ (s.nodes 0).trace)) &&
        decide ((u.nodes 1).isActivated = true ∧ (u.nodes 1).store.currentTerm = 2)
      | [] => false) (by decide +kernel)
  split at hc
  · rename_i u k
    simp only [Bool.and_eq_true, List.any_eq_true, decide_eq_true_eq] at hc
    obtain ⟨⟨s, hs, hT, he⟩, hactive, hT'⟩ := hc
    refine ⟨u, k, hr, ⟨s, hs, he⟩, hactive, hT', ?_⟩
    exact (acks_durable (by decide) hr hs (by decide) he).2 1 (by decide) hactive
      (by rw [hT, hT']; decide)
  · cases hc

end Foros
