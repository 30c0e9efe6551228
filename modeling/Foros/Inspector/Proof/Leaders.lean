import Foros.Inspector.Proof.Pass

/-!
# The leader that is shown

A cluster is `Led` when the leader it shows is one of its nodes, in state LEADER and in the term
shown. A pass keeps that; a message keeps it exactly when it `KeepsLeader`: `leader_exist_` is
cleared when the leader's entry expires, but neither when the leader reports another state nor when
another node reports a larger term (`leaders_shown`).
-/

namespace Foros

/-- The leader that is shown is a node of the cluster, in state LEADER and in the term shown. -/
def ClusterInfo.Led (cluster : ClusterInfo) : Prop :=
  cluster.leaderExist = true → ∃ node, cluster.nodes[cluster.leader]? = some node ∧
    node.state = InspectorMsg.leader ∧ node.term = cluster.term

namespace Inspector

variable {limit now : Nat} {s s' : Inspector} {msg : InspectorMsg} {cluster cluster' : ClusterInfo}
  {node : NodeInfo} {nodes : Std.TreeMap Nat NodeInfo}

/-! ## One cluster -/

/-- After a pass: the leader's node was there, and it was outdated or a leader in the term shown. -/
theorem led_pass_iff (hid : ∀ (id : Nat) (n : NodeInfo), cluster.nodes[id]? = some n → n.id = id)
    (hu : updateCluster limit now cluster = some cluster') :
    cluster'.Led ↔ (cluster.leaderExist = true → ∃ n, cluster.nodes[cluster.leader]? = some n ∧
      (isOutdated limit now n.lastUpdated = true ∨
        n.state = InspectorMsg.leader ∧ n.term = cluster.term)) := by
  have hp := updateCluster_passed hu
  unfold ClusterInfo.Led
  rw [hp.leaderExist, hp.leader, hp.term]
  simp only [getElem?_passed hu]
  constructor
  · intro h hexist
    by_cases hout : ∃ n, cluster.nodes[cluster.leader]? = some n ∧
        isOutdated limit now n.lastUpdated = true
    · obtain ⟨n, hn, hd⟩ := hout
      exact ⟨n, hn, .inl hd⟩
    · have hlate : ∀ (id : Nat) (n : NodeInfo), cluster.nodes[id]? = some n →
          isOutdated limit now n.lastUpdated = true → cluster.leader ≠ n.id := by
        intro id n hn hd hl
        rw [hid id n hn] at hl
        exact hout ⟨n, hl ▸ hn, hd⟩
      obtain ⟨n, ⟨hn, -⟩, hstate⟩ := h ⟨hexist, hlate⟩
      exact ⟨n, hn, .inr hstate⟩
  · rintro h ⟨hexist, hlate⟩
    obtain ⟨n, hn, hcase⟩ := h hexist
    have hlive : isOutdated limit now n.lastUpdated = false := by
      cases hd : isOutdated limit now n.lastUpdated with
      | false => rfl
      | true => exact absurd (hid _ n hn).symm (hlate _ n hn hd)
    refine ⟨n, ⟨hn, hlive⟩, hcase.resolve_left fun hd => ?_⟩
    rw [hlive] at hd
    cases hd

/-- A pass keeps a cluster led. -/
theorem led_pass (hid : ∀ (id : Nat) (n : NodeInfo), cluster.nodes[id]? = some n → n.id = id)
    (hu : updateCluster limit now cluster = some cluster') (h : cluster.Led) : cluster'.Led := by
  refine (led_pass_iff hid hu).2 fun hexist => ?_
  obtain ⟨n, hn, hstate⟩ := h hexist
  exact ⟨n, hn, .inr hstate⟩

/-- The message is a leader's of a term that is not older, or another node's of no newer term, or
the entry of the leader that is shown has expired. -/
def KeepsLeader (limit now : Nat) (msg : InspectorMsg) (cluster : ClusterInfo) : Prop :=
  cluster.leaderExist = true →
    cluster.term ≤ msg.term ∧ msg.state = InspectorMsg.leader ∨
    msg.id ≠ cluster.leader ∧ (msg.term ≤ cluster.term ∨
      ∃ n ∈ cluster.nodes[cluster.leader]?, isOutdated limit now n.lastUpdated = true)

instance (limit now : Nat) (msg : InspectorMsg) (cluster : ClusterInfo) :
    Decidable (KeepsLeader limit now msg cluster) := by
  unfold KeepsLeader; infer_instance

/-- **When an accepted message keeps its cluster led.** -/
theorem led_accepted_iff (ha : Accepted limit now msg s s' cluster node nodes)
    (hid : ∀ (id : Nat) (n : NodeInfo), nodes[id]? = some n → n.id = id) (hled : cluster.Led)
    (hu : updateCluster limit now ({ cluster with nodes := nodes }.summarize node) =
      some cluster') : cluster'.Led ↔ KeepsLeader limit now msg cluster := by
  have hself : nodes[msg.id]? = some node := by rw [ha.kept, if_pos rfl]
  have hother : ∀ {id : Nat}, id ≠ msg.id → nodes[id]? = cluster.nodes[id]? :=
    fun hne => by rw [ha.kept, if_neg hne]
  have hnode : node.id = msg.id := hid _ _ hself
  obtain ⟨hterm, hstate, hstamp⟩ : node.term = msg.term ∧ node.state = msg.state ∧
      node.lastUpdated = msg.stamp := by
    obtain ⟨old, -, rfl⟩ := ha.reported
    exact ⟨rfl, rfl, rfl⟩
  have hlive : isOutdated limit now node.lastUpdated = false := hstamp ▸ ha.stamp
  rw [led_pass_iff (by simpa using hid) hu, summarize_eq]
  unfold KeepsLeader
  simp only
  by_cases hnew : cluster.term ≤ node.term ∧ node.state = InspectorMsg.leader
  · -- the node itself is shown
    refine iff_of_true (fun _ => ⟨node, ?_, .inr ⟨hnew.2, (Nat.max_eq_right hnew.1).symm⟩⟩)
      fun _ => .inl ⟨hterm ▸ hnew.1, hstate ▸ hnew.2⟩
    rw [if_pos hnew, hnode]
    exact hself
  · -- the leader shown before is shown
    rw [if_neg hnew, decide_eq_false hnew, Bool.false_or]
    refine imp_congr_right fun hlead => ?_
    obtain ⟨n, hn, hns, hnt⟩ := hled hlead
    have hnot : ¬ (cluster.term ≤ msg.term ∧ msg.state = InspectorMsg.leader) :=
      hterm ▸ hstate ▸ hnew
    rw [or_iff_right hnot]
    by_cases hme : msg.id = cluster.leader
    · -- the leader shown reports that it is none, or an older term
      refine iff_of_false ?_ fun hne => hne.1 hme
      rintro ⟨m, hm, hcase⟩
      rw [← hme, hself] at hm
      cases hm
      rcases hcase with hd | ⟨hleads, heq⟩
      · rw [hlive] at hd
        cases hd
      · exact hnew ⟨heq ▸ Nat.le_max_left .., hleads⟩
    · rw [hother (Ne.symm hme), hn]
      simp only [Option.mem_def, Option.some.injEq, exists_eq_left', hns, hnt, true_and, ne_eq, hme,
        not_false_eq_true, hterm]
      have hmax : cluster.term = max cluster.term msg.term ↔ msg.term ≤ cluster.term := by omega
      rw [or_comm, hmax]

/-! ## All clusters -/

/-- Every cluster is led. -/
def Led (s : Inspector) : Prop :=
  ∀ (name : String) (cluster : ClusterInfo), s.clusters[name]? = some cluster → cluster.Led

/-- A message keeps the leader of the cluster it goes to, if it is accepted and the cluster kept. -/
def KeepsLeaders (limit now : Nat) (msg : InspectorMsg) (s : Inspector) : Prop :=
  (storeMessage limit now msg s).1 = true → ∀ cluster ∈ s.clusters[msg.clusterName]?,
    isOutdated limit now cluster.lastUpdated = false → KeepsLeader limit now msg cluster

instance (limit now : Nat) (msg : InspectorMsg) (s : Inspector) :
    Decidable (KeepsLeaders limit now msg s) := by
  unfold KeepsLeaders; infer_instance

/-- The id of a node is its key. -/
abbrev Keyed (s : Inspector) : Prop := s.Each fun _ id node => node.id = id

theorem Led.updateClusterInfo (h : s.Led) (hid : s.Keyed) :
    (updateClusterInfo limit now s).Led := by
  intro name cluster' hc'
  obtain ⟨cluster, hc, hu⟩ := updateClusterInfo_eq_some.1 hc'
  exact led_pass (hid name cluster hc) hu (h name cluster hc)

/-- A message goes to the cluster that is kept, if there is one. -/
theorem Target.unique {name : String} (ht : Target limit now name s cluster) {c : ClusterInfo}
    (hc : s.clusters[name]? = some c) (hlive : isOutdated limit now c.lastUpdated = false) :
    cluster = c := by
  rcases ht with ⟨hc', -⟩ | ⟨-, hnone⟩
  · exact Option.some.inj (hc'.symm.trans hc)
  · rw [hnone c hc] at hlive
    cases hlive

theorem Led.target (h : s.Led) {name : String} (ht : Target limit now name s cluster) :
    cluster.Led := by
  rcases ht with ⟨hc, -⟩ | ⟨rfl, -⟩
  · exact h name cluster hc
  · exact fun hexist => by cases hexist

/-- The node of an accepted message is kept under its id. -/
theorem Each.accepted_id (hid : s.Keyed) (ha : Accepted limit now msg s s' cluster node nodes) :
    node.id = msg.id := by
  obtain ⟨old, hold | rfl, rfl⟩ := ha.reported
  · have hkey : old.id = msg.id := hid.target ha.target hold
    exact hkey
  · rfl

/-- The cluster of an accepted message survives the pass that follows. -/
theorem Accepted.survives (ha : Accepted limit now msg s s' cluster node nodes) :
    ∃ cluster', updateCluster limit now ({ cluster with nodes := nodes }.summarize node) =
      some cluster' := by
  obtain ⟨old, -, rfl⟩ := ha.reported
  refine exists_updateCluster.2 (isOutdated_mono ?_ ha.stamp)
  rw [summarize_eq]
  exact Nat.le_max_right ..

/-- **When a message leaves every cluster led.** -/
theorem led_message_iff (hid : s.Keyed) (h : s.Led) :
    (inspectorMessageReceived limit now msg s).Led ↔ KeepsLeaders limit now msg s := by
  rw [inspectorMessageReceived_eq]
  unfold KeepsLeaders
  rcases storeMessage_cases limit now msg s with ⟨hno, hs⟩ | ⟨hyes, cluster, node, nodes, ha⟩
  · rw [hno]
    refine iff_of_true (fun name c hc => ?_) fun hacc => by cases hacc
    have hc : (storeMessage limit now msg s).2.clusters[name]? = some c := hc
    rw [hs] at hc
    exact h name c hc
  rw [hyes, if_pos rfl]
  have hid' : (storeMessage limit now msg s).2.Keyed :=
    hid.accepted ha (fun _ _ _ hp _ => hp) (hid.accepted_id ha)
  have hnodes : ∀ (id : Nat) (n : NodeInfo), nodes[id]? = some n → n.id = id := by
    intro id n hn
    refine hid' msg.clusterName _ ha.entry id n ?_
    rwa [summarize_nodes]
  obtain ⟨cluster', hu⟩ := ha.survives
  have hiff := led_accepted_iff ha hnodes (h.target ha.target) hu
  have hshown : (updateClusterInfo limit now (storeMessage limit now msg s).2).clusters[
      msg.clusterName]? = some cluster' := updateClusterInfo_eq_some.2 ⟨_, ha.entry, hu⟩
  constructor
  · intro hled _ c hc hlive
    exact ha.target.unique hc hlive ▸ hiff.1 (hled _ _ hshown)
  · intro hkeeps name c hc
    by_cases hname : name = msg.clusterName
    · subst hname
      cases hshown.symm.trans hc
      refine hiff.2 ?_
      rcases ha.target with ⟨hc', hlive⟩ | ⟨rfl, -⟩
      · exact hkeeps rfl cluster hc' hlive
      · exact fun hexist => by cases hexist
    · obtain ⟨c₀, hc₀, hu₀⟩ := updateClusterInfo_eq_some.1 hc
      rw [ha.others name hname] at hc₀
      exact led_pass (hid name c₀ hc₀) hu₀ (h name c₀ hc₀)

end Inspector

/-! ## Runs -/

namespace Inspector.Watch

variable {limit : Nat} {w w' : Watch} {event : InspectorEvent}

/-- Every node is the latest report accepted from it. -/
def Recorded (w : Watch) : Prop := w.inspector.Each fun name id node =>
  ∃ report, w.reports name id = some report ∧ node = (NodeInfo.new id).report report

/-- Whenever a cluster shows a leader, it contains it, and the latest report accepted from it says
LEADER in the term of the cluster. -/
def ShowsLeaders (w : Watch) : Prop :=
  ∀ (name : String) (cluster : ClusterInfo), w.inspector.clusters[name]? = some cluster →
    cluster.leaderExist = true → cluster.leader ∈ cluster.nodes ∧
      ∃ report, w.reports name cluster.leader = some report ∧
        report.state = InspectorMsg.leader ∧ report.term = cluster.term

/-- The event is no message, or one that keeps the leader of its cluster. -/
def KeepsLeaders (limit : Nat) (w : Watch) : InspectorEvent → Prop
  | .refresh _ => True
  | .message now msg => Inspector.KeepsLeaders limit now msg w.inspector

instance (limit : Nat) (w : Watch) (event : InspectorEvent) :
    Decidable (w.KeepsLeaders limit event) :=
  match event with
  | .refresh _ => .isTrue trivial
  | .message now msg =>
    inferInstanceAs (Decidable (Inspector.KeepsLeaders limit now msg w.inspector))

theorem Recorded.keyed (h : w.Recorded) : w.inspector.Keyed := by
  intro name cluster hc id node hn
  obtain ⟨report, -, rfl⟩ := h name cluster hc id node hn
  rfl

theorem Recorded.showsLeaders_iff (h : w.Recorded) : w.ShowsLeaders ↔ w.inspector.Led := by
  refine forall₃_congr fun name cluster hc => imp_congr_right fun _ => ?_
  rw [Std.TreeMap.mem_iff_isSome_getElem?, Option.isSome_iff_exists]
  constructor
  · rintro ⟨⟨node, hn⟩, report, hr, hs, ht⟩
    obtain ⟨report', hr', rfl⟩ := h name cluster hc _ node hn
    cases hr.symm.trans hr'
    exact ⟨_, hn, hs, ht⟩
  · rintro ⟨node, hn, hs, ht⟩
    obtain ⟨report, hr, rfl⟩ := h name cluster hc _ node hn
    exact ⟨⟨_, hn⟩, report, hr, hs, ht⟩

theorem Recorded.step (h : w.Recorded) (hs : w.step limit event = some w') : w'.Recorded := by
  cases event with
  | refresh now =>
    rw [step_refresh hs]
    exact h.updateClusterInfo
  | message now msg =>
    rw [step_message hs, inspectorMessageReceived_eq]
    unfold Recorded
    rcases storeMessage_cases limit now msg w.inspector with ⟨hno, hsame⟩ |
      ⟨hyes, cluster, node, nodes, ha⟩
    · simp only [hno, Bool.false_eq_true, if_false]
      exact h.congr hsame
    · simp only [hyes, if_true]
      refine (h.accepted ha (fun name id n hp hne => ?_) ⟨msg, ?_, ?_⟩).updateClusterInfo
      · obtain ⟨report, hr, rfl⟩ := hp
        refine ⟨report, ?_, rfl⟩
        by_cases hname : name = msg.clusterName
        · subst hname
          have hid : id ≠ msg.id := fun hid => hne ⟨rfl, hid⟩
          rw [Function.update_self, Function.update_of_ne hid, hr]
        · rw [Function.update_of_ne hname, hr]
      · rw [Function.update_self, Function.update_self]
      · have hid := h.keyed.accepted_id ha
        obtain ⟨old, -, rfl⟩ := ha.reported
        have hold : old.id = msg.id := hid
        unfold NodeInfo.report NodeInfo.new
        rw [hold]

/-- **A step shows the leaders exactly when it keeps them.** -/
theorem showsLeaders_step_iff (hr : w.Recorded) (hs : w.step limit event = some w')
    (h : w.ShowsLeaders) : w'.ShowsLeaders ↔ w.KeepsLeaders limit event := by
  rw [(hr.step hs).showsLeaders_iff]
  have hled := hr.showsLeaders_iff.1 h
  cases event with
  | refresh now =>
    rw [step_refresh hs]
    exact iff_of_true (hled.updateClusterInfo hr.keyed) trivial
  | message now msg =>
    rw [step_message hs]
    exact led_message_iff hr.keyed hled

end Inspector.Watch

/-- **When the leaders that are shown lead.** In a run of an inspector every leader shown is a node
whose latest accepted report says LEADER in the term shown, in every state, if and only if every
message accepted keeps the leader of its cluster. -/
theorem leaders_shown {limit : Nat} {h : List Inspector.Watch}
    (hr : (Inspector.Watch.system limit).Run (fun _ _ => True) h) :
    (∀ w ∈ h, w.ShowsLeaders) ↔
      (Inspector.Watch.system limit).Run (fun w event => w.KeepsLeaders limit event) h := by
  have hrec : ∀ w ∈ h, w.Recorded := by
    refine hr.forall_mem (P := Inspector.Watch.Recorded) ?_ fun w event w' hw _ hs => hw.step hs
    intro name cluster hc
    simp [Inspector.Watch.system] at hc
  have hinit : (Inspector.Watch.system limit).init.ShowsLeaders := by
    intro name cluster hc
    simp [Inspector.Watch.system] at hc
  have hstep : ∀ (w : Inspector.Watch) (event : InspectorEvent) (w' : Inspector.Watch), w ∈ h →
      True → (Inspector.Watch.system limit).step w event = some w' → w.ShowsLeaders →
        (w'.ShowsLeaders ↔ w.KeepsLeaders limit event) :=
    fun w event w' hw _ hs hshown => Inspector.Watch.showsLeaders_step_iff (hrec w hw) hs hshown
  have hiff := hr.forall_mem_iff hinit hstep
  exact hiff.trans ⟨fun h => h.mono fun _ _ hok => hok.2,
    fun h => h.mono fun _ _ hok => ⟨trivial, hok⟩⟩

/-- Node 1 leads term 1, node 2 follows it and then leads term 2. -/
theorem leaders_shown_second_term : ∃ h : List Inspector.Watch,
    (∀ w ∈ h, w.ShowsLeaders) ∧ h.map (fun w => w.inspector.clusters["hello"]?.map fun cluster =>
      (cluster.leaderExist, cluster.leader, cluster.term)) =
        [some (true, 2, 2), some (true, 1, 1), some (true, 1, 1), none] := by
  obtain ⟨h, hr, hc⟩ := Lib.System.exists_run (S := Inspector.Watch.system 1500000000)
    (fun w event => w.KeepsLeaders 1500000000 event)
    [.message 1 ⟨1, "hello", 2, 1, 4, 1, 0, 1⟩, .message 2 ⟨2, "hello", 2, 2, 2, 1, 0, 1⟩,
      .message 3 ⟨3, "hello", 2, 2, 4, 2, 0, 2⟩]
    (fun h => h.map (fun w => w.inspector.clusters["hello"]?.map fun cluster =>
      (cluster.leaderExist, cluster.leader, cluster.term)) =
        [some (true, 2, 2), some (true, 1, 1), some (true, 1, 1), none])
    (by decide +kernel)
  exact ⟨h, (leaders_shown (hr.mono fun _ _ _ => trivial)).2 hr, by simpa using hc⟩

/-- Node 1 leads term 1 and follows in term 2, and is still shown as the leader. -/
theorem old_leader_shown : ∃ h, (Inspector.Watch.system 1500000000).Run (fun _ _ => True) h ∧
    ¬ ∀ w ∈ h, w.ShowsLeaders := by
  obtain ⟨h, hr, hc⟩ := Lib.System.exists_run
    (S := Inspector.Watch.system 1500000000) (fun _ _ => True)
    [.message 1 ⟨1, "hello", 2, 1, 4, 1, 0, 1⟩, .message 2 ⟨2, "hello", 2, 1, 2, 2, 0, 2⟩]
    (fun h => h.any fun w =>
      w.inspector.clusters["hello"]?.any (fun cluster => cluster.leaderExist &&
        cluster.leader = 1) && (w.reports "hello" 1).any (·.state = 2))
    (by decide +kernel)
  simp only [List.any_eq_true, Option.any_eq_true, Bool.and_eq_true, decide_eq_true_eq] at hc
  obtain ⟨w, hw, ⟨cluster, hcluster, hexist, hleader⟩, report, hreport, hstate⟩ := hc
  refine ⟨h, hr, fun hshown => ?_⟩
  obtain ⟨-, report', hreport', hleads, -⟩ := hshown w hw "hello" cluster hcluster hexist
  rw [hleader, hreport] at hreport'
  cases hreport'
  rw [hstate] at hleads
  exact absurd hleads (by decide)

end Foros
