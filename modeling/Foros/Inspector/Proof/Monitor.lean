import Foros.Cluster.Proof.Election
import Foros.Inspector.Monitor
import Foros.Inspector.Proof.Leaders
import Foros.Lib.Refinement

/-!
# What the inspector shows has been so

Reports are lost, late and out of order, and a leader that has stepped down may still be shown. But
a row is what its node was at some moment, of two nodes no rows say LEADER in one term, a leader
that is shown has led, in a term no newer than the one shown, and a node has had the term that is
shown (`inspector_shows_past`). As all nodes of a cluster are started with the same ids, no size is
ever flagged (`sizes_never_mismatch`).
-/

namespace Foros

/-! ## Rows and summaries come from accepted messages -/

/-- What a cluster shows comes from messages that meet `P`. -/
structure ClusterInfo.Backed (P : InspectorMsg → Prop) (name : String) (cluster : ClusterInfo) :
    Prop where
  rows : ∀ (id : Nat) (node : NodeInfo), cluster.nodes[id]? = some node →
    ∃ msg, P msg ∧ msg.clusterName = name ∧ msg.id = id ∧ node = (NodeInfo.new id).report msg
  term : ∃ msg, P msg ∧ msg.clusterName = name ∧ msg.term = cluster.term
  leader : cluster.leaderExist = true → ∃ msg, P msg ∧ msg.clusterName = name ∧
    msg.id = cluster.leader ∧ msg.state = InspectorMsg.leader ∧ msg.term ≤ cluster.term

namespace Inspector

variable {limit now : Nat} {s s' : Inspector} {msg : InspectorMsg} {P P' : InspectorMsg → Prop}
  {cluster cluster' : ClusterInfo} {node : NodeInfo} {nodes : Std.TreeMap Nat NodeInfo}
  {name : String}

/-- What all clusters show comes from messages that meet `P`. -/
def Backed (P : InspectorMsg → Prop) (s : Inspector) : Prop :=
  ∀ (name : String) (cluster : ClusterInfo), s.clusters[name]? = some cluster →
    cluster.Backed P name

theorem Backed.mono (h : s.Backed P) (hP : ∀ msg, P msg → P' msg) : s.Backed P' := by
  intro name cluster hc
  obtain ⟨hrows, ⟨m, hm, hterm⟩, hleader⟩ := h name cluster hc
  refine ⟨fun id node hn => ?_, ⟨m, hP m hm, hterm⟩, fun hexist => ?_⟩
  · obtain ⟨m, hm, hrow⟩ := hrows id node hn
    exact ⟨m, hP m hm, hrow⟩
  · obtain ⟨m, hm, hlead⟩ := hleader hexist
    exact ⟨m, hP m hm, hlead⟩

/-- A pass only takes away. -/
theorem Backed.updateClusterInfo (h : s.Backed P) : (updateClusterInfo limit now s).Backed P := by
  intro name cluster' hc'
  obtain ⟨cluster, hc, hu⟩ := updateClusterInfo_eq_some.1 hc'
  obtain ⟨hrows, hterm, hleader⟩ := h name cluster hc
  have hp := updateCluster_passed hu
  refine ⟨fun id node hn => hrows id node (getElem?_passed hu |>.1 hn).1, ?_, fun hexist => ?_⟩
  · rw [hp.term]
    exact hterm
  · rw [hp.leader, hp.term]
    exact hleader (hp.leaderExist.1 hexist).1

/-- The summary of an accepted message. -/
theorem Backed.accepted (h : s.Backed P) (ha : Accepted limit now msg s s' cluster node nodes)
    (hmsg : P msg) : ({ cluster with nodes := nodes }.summarize node).Backed P msg.clusterName := by
  obtain ⟨old, hold, hnode⟩ := ha.reported
  -- a new cluster has no rows, no term and no leader
  have hprev : cluster.Backed P msg.clusterName ∨ cluster = .new msg.clusterName := by
    rcases ha.target with ⟨hc, -⟩ | ⟨hnew, -⟩
    · exact .inl (h _ _ hc)
    · exact .inr hnew
  have hself : node = (NodeInfo.new msg.id).report msg := by
    rcases hold with hold | rfl
    · rcases hprev with hprev | rfl
      · obtain ⟨m, -, -, -, rfl⟩ := hprev.rows _ _ hold
        exact hnode
      · simp [ClusterInfo.new] at hold
    · exact hnode
  rw [summarize_eq]
  refine ⟨fun id n hn => ?_, ?_, fun hexist => ?_⟩
  · rw [ha.kept] at hn
    by_cases hid : id = msg.id
    · rw [if_pos hid] at hn
      cases hn
      exact ⟨msg, hmsg, rfl, hid.symm, hid ▸ hself⟩
    · rw [if_neg hid] at hn
      rcases hprev with hprev | rfl
      · exact hprev.rows id n hn
      · simp [ClusterInfo.new] at hn
  · change ∃ m, P m ∧ m.clusterName = msg.clusterName ∧ m.term = max cluster.term node.term
    have hterm : node.term = msg.term := by rw [hself]; rfl
    rcases Nat.le_total cluster.term node.term with hle | hle
    · exact ⟨msg, hmsg, rfl, by rw [Nat.max_eq_right hle, hterm]⟩
    · rw [Nat.max_eq_left hle]
      rcases hprev with hprev | rfl
      · exact hprev.term
      · refine ⟨msg, hmsg, rfl, ?_⟩
        rw [← hterm]
        exact Nat.le_zero.1 hle
  · simp only [Bool.or_eq_true, decide_eq_true_eq] at hexist
    by_cases hnew : cluster.term ≤ node.term ∧ node.state = InspectorMsg.leader
    · refine ⟨msg, hmsg, rfl, ?_, ?_, ?_⟩
      · rw [if_pos hnew, hself]
        rfl
      · rw [← hnew.2, hself]
        rfl
      · rw [hself]
        exact Nat.le_max_right ..
    · have hexist := hexist.resolve_left hnew
      rcases hprev with hprev | rfl
      · obtain ⟨m, hm, hname, hid, hstate, hle⟩ := hprev.leader hexist
        refine ⟨m, hm, hname, ?_, hstate, Nat.le_trans hle (Nat.le_max_left ..)⟩
        rw [if_neg hnew]
        exact hid
      · cases hexist

theorem Backed.message (h : s.Backed P) (hmsg : P msg) :
    (inspectorMessageReceived limit now msg s).Backed P := by
  rw [inspectorMessageReceived_eq]
  rcases storeMessage_cases limit now msg s with ⟨hno, hs⟩ | ⟨hyes, cluster, node, nodes, ha⟩
  · rw [hno]
    intro name c hc
    have hc : (storeMessage limit now msg s).2.clusters[name]? = some c := hc
    rw [hs] at hc
    exact h name c hc
  · rw [hyes, if_pos rfl]
    refine Backed.updateClusterInfo fun name c hc => ?_
    by_cases hname : name = msg.clusterName
    · subst hname
      cases ha.entry.symm.trans hc
      exact h.accepted ha hmsg
    · rw [ha.others name hname] at hc
      exact h name c hc

/-- An event leaves an inspector backed if its message is right. -/
theorem Backed.step {w w' : Watch} {event : InspectorEvent} (h : w.inspector.Backed P)
    (hmsg : ∀ now msg, event = .message now msg → P msg) (hs : w.step limit event = some w') :
    w'.inspector.Backed P := by
  cases event with
  | refresh now =>
    rw [Watch.step_refresh hs]
    exact h.updateClusterInfo
  | message now msg =>
    rw [Watch.step_message hs]
    exact h.message (hmsg now msg rfl)

/-! ## Sizes that agree -/

/-- The size a pass leaves is that of the last node it keeps. -/
theorem foldl_updateNodeInfo_size : ∀ (entries : List (Nat × NodeInfo)) (cluster : ClusterInfo)
    (size : Nat), (entries.foldl (updateNodeInfo limit now) (cluster, size)).2 =
      ((live limit now entries).getLast?.map (·.size)).getD size
  | [], _, _ => rfl
  | (id, node) :: entries, cluster, size => by
    rw [List.foldl_cons]
    cases hdead : isOutdated limit now node.lastUpdated with
    | true =>
      rw [updateNodeInfo_dead hdead, foldl_updateNodeInfo_size entries]
      simp [live, hdead]
    | false =>
      have hlive : live limit now ((id, node) :: entries) = node :: live limit now entries := by
        simp [live, hdead]
      rw [updateNodeInfo_live hdead, foldl_updateNodeInfo_size entries, hlive, List.getLast?_cons]
      cases (live limit now entries).getLast? <;> rfl

theorem updateCluster_size (hu : updateCluster limit now cluster = some cluster') :
    cluster'.size = ((live limit now cluster.nodes.toList).getLast?.map (·.size)).getD 0 := by
  have hfold : (cluster.nodes.toList.foldl (updateNodeInfo limit now)
      ({ cluster with sizeMismatched := false }, 0)).2 = _ := foldl_updateNodeInfo_size ..
  unfold updateCluster at hu
  simp only at hu
  split at hu
  · cases hu
  · cases hu
    exact hfold

end Inspector

/-- A cluster whose nodes all report the size `n`, with the youngest of them. -/
structure ClusterInfo.Uniform (n : Nat) (cluster : ClusterInfo) : Prop where
  sizes : ∀ (id : Nat) (node : NodeInfo), cluster.nodes[id]? = some node → node.size = n
  youngest : ∃ (id : Nat) (node : NodeInfo), cluster.nodes[id]? = some node ∧
    cluster.lastUpdated ≤ node.lastUpdated

namespace Inspector

variable {limit now n : Nat} {s s' : Inspector} {msg : InspectorMsg}
  {cluster cluster' : ClusterInfo} {node : NodeInfo} {nodes : Std.TreeMap Nat NodeInfo}

/-- One node cannot disagree. -/
theorem comparable_of_one {id remembered : Nat}
    (hone : ∀ (k : Nat) (node : NodeInfo), cluster.nodes[k]? = some node → k = id) :
    Comparable remembered (live limit now cluster.nodes.toList) := by
  have hkey : ∀ p ∈ cluster.nodes.toList, p.1 = id := fun p hp =>
    hone p.1 p.2 (Std.TreeMap.mem_toList_iff_getElem?_eq_some.1 hp)
  have hdistinct := Std.TreeMap.distinct_keys_toList (t := cluster.nodes)
  unfold live
  cases hl : cluster.nodes.toList with
  | nil => trivial
  | cons p rest =>
    cases rest with
    | nil =>
      cases hd : isOutdated limit now p.2.lastUpdated with
      | true => simp [hd, Comparable]
      | false => simp [hd, Comparable]
    | cons q rest =>
      rw [hl] at hkey hdistinct
      have hne := (List.pairwise_cons.1 hdistinct).1 q (.head _)
      rw [hkey p (.head _), hkey q (.tail _ (.head _))] at hne
      simp at hne

/-- A pass over nodes that agree remembers their size and finds no mismatch, if it remembered that
size before, or there is but one node. -/
theorem uniform_pass (h : cluster.Uniform n) (hn : 0 < n)
    (hsize : cluster.size = n ∨ ∃ id : Nat, ∀ (k : Nat) (node : NodeInfo),
      cluster.nodes[k]? = some node → k = id)
    (hu : updateCluster limit now cluster = some cluster') :
    cluster'.Uniform n ∧ cluster'.size = n ∧ cluster'.sizeMismatched = false := by
  have hp := updateCluster_passed hu
  have hlive : ∀ node ∈ live limit now cluster.nodes.toList, node.size = n := by
    intro node hm
    obtain ⟨id, hn, -⟩ := mem_live.1 hm
    exact h.sizes id node hn
  -- the youngest node is kept with its cluster
  obtain ⟨id, node, hnode, hle⟩ := h.youngest
  have hkept := isOutdated_mono hle (exists_updateCluster.1 ⟨cluster', hu⟩)
  have huniform : cluster'.Uniform n := by
    refine ⟨fun k m hm => h.sizes k m (getElem?_passed hu |>.1 hm).1, id, node,
      getElem?_passed hu |>.2 ⟨hnode, hkept⟩, ?_⟩
    rw [hp.lastUpdated]
    exact hle
  refine ⟨huniform, ?_, ?_⟩
  · rw [updateCluster_size hu]
    cases hl : (live limit now cluster.nodes.toList).getLast? with
    | none =>
      rw [List.getLast?_eq_none_iff] at hl
      have hm := mem_live.2 ⟨id, hnode, hkept⟩
      rw [hl] at hm
      cases hm
    | some last => exact hlive last (List.mem_of_getLast? hl)
  · have hagree : ¬ Disagrees cluster' := by
      rintro ⟨i, j, a, b, ha, hb, hne⟩
      exact hne ((huniform.sizes i a ha).trans (huniform.sizes j b hb).symm)
    have hpos : ∀ (k : Nat) (m : NodeInfo), cluster.nodes[k]? = some m → 0 < m.size :=
      fun k m hm => h.sizes k m hm ▸ hn
    have hcmp : Comparable cluster.size (live limit now cluster.nodes.toList) := by
      rcases hsize with hsize | ⟨id, hone⟩
      · cases hl : live limit now cluster.nodes.toList with
        | nil => trivial
        | cons first rest =>
          rw [hl] at hlive
          exact .inl ((hlive first (.head _)).trans hsize.symm)
      · exact comparable_of_one hone
    have hiff := (sizeMismatched_passed hu hpos).2 hcmp
    cases hm : cluster'.sizeMismatched with
    | false => rfl
    | true => exact absurd (hiff.1 hm) hagree

variable {size : String → Nat}

/-- The clusters are remembered with the sizes of their nodes, and none is flagged. -/
def Matched (size : String → Nat) (s : Inspector) : Prop :=
  ∀ (name : String) (cluster : ClusterInfo), s.clusters[name]? = some cluster →
    cluster.Uniform (size name) ∧ cluster.size = size name ∧ cluster.sizeMismatched = false

theorem Matched.updateClusterInfo (h : s.Matched size) (hpos : ∀ name, 0 < size name) :
    (updateClusterInfo limit now s).Matched size := by
  intro name cluster' hc'
  obtain ⟨cluster, hc, hu⟩ := updateClusterInfo_eq_some.1 hc'
  obtain ⟨huniform, hsize, -⟩ := h name cluster hc
  exact uniform_pass huniform (hpos name) (.inl hsize) hu

/-- An accepted report is no older than the one before it. -/
theorem stamp_le_of_accepted (hacc : (storeMessage limit now msg s).1 = true)
    (hc : s.clusters[msg.clusterName]? = some cluster)
    (hlive : isOutdated limit now cluster.lastUpdated = false)
    (hn : cluster.nodes[msg.id]? = some node) : node.lastUpdated ≤ msg.stamp := by
  unfold storeMessage getClusterInfo getNodeInfo at hacc
  simp only [hc, hlive, Bool.false_eq_true, if_false, hn] at hacc
  split at hacc
  · cases hacc
  split at hacc
  · cases hacc
  · rename_i hle
    exact Nat.le_of_not_lt hle

/-- The cluster of an accepted message is uniform, and remembers the size or has one node. -/
theorem Matched.accepted (h : s.Matched size)
    (ha : Accepted limit now msg s s' cluster node nodes)
    (hacc : (storeMessage limit now msg s).1 = true)
    (hsize : msg.clusterSize = size msg.clusterName) :
    ({ cluster with nodes := nodes }.summarize node).Uniform (size msg.clusterName) ∧
      (cluster.size = size msg.clusterName ∨ ∃ id : Nat, ∀ (k : Nat) (m : NodeInfo),
        nodes[k]? = some m → k = id) := by
  have hself : nodes[msg.id]? = some node := by rw [ha.kept, if_pos rfl]
  obtain ⟨hns, hstamp⟩ : node.size = msg.clusterSize ∧ node.lastUpdated = msg.stamp := by
    obtain ⟨old, -, rfl⟩ := ha.reported
    exact ⟨rfl, rfl⟩
  have hnew : node.size = size msg.clusterName := hns.trans hsize
  rcases ha.target with ⟨hc, hlive⟩ | ⟨rfl, -⟩
  · obtain ⟨huniform, hremembered, -⟩ := h _ _ hc
    refine ⟨⟨fun id m hm => ?_, ?_⟩, .inl hremembered⟩
    · rw [summarize_nodes, ha.kept] at hm
      split at hm
      · cases hm
        exact hnew
      · exact huniform.sizes id m hm
    · rw [summarize_eq]
      simp only
      rcases Nat.le_total cluster.lastUpdated node.lastUpdated with hle | hle
      · exact ⟨msg.id, node, hself, by rw [Nat.max_eq_right hle]⟩
      -- the youngest node is another one, or has reported at the same time
      obtain ⟨id, m, hm, hyoungest⟩ := huniform.youngest
      rw [Nat.max_eq_left hle]
      by_cases hid : id = msg.id
      · subst hid
        have := stamp_le_of_accepted hacc hc hlive hm
        exact ⟨msg.id, node, hself, by omega⟩
      · exact ⟨id, m, by rw [ha.kept, if_neg hid, hm], hyoungest⟩
  · have hone : ∀ (k : Nat) (m : NodeInfo), nodes[k]? = some m → k = msg.id := by
      intro k m hm
      by_contra hk
      rw [ha.kept, if_neg hk] at hm
      simp [ClusterInfo.new] at hm
    refine ⟨⟨fun id m hm => ?_, msg.id, node, ?_, ?_⟩, .inr ⟨msg.id, hone⟩⟩
    · rw [summarize_nodes] at hm
      rw [hone id m hm, hself] at hm
      cases hm
      exact hnew
    · rw [summarize_nodes, hself]
    · rw [summarize_eq]
      simp [ClusterInfo.new]

theorem Matched.message (h : s.Matched size) (hpos : ∀ name, 0 < size name)
    (hsize : msg.clusterSize = size msg.clusterName) :
    (inspectorMessageReceived limit now msg s).Matched size := by
  rw [inspectorMessageReceived_eq]
  rcases storeMessage_cases limit now msg s with ⟨hno, hs⟩ | ⟨hyes, cluster, node, nodes, ha⟩
  · rw [hno]
    intro name c hc
    have hc : (storeMessage limit now msg s).2.clusters[name]? = some c := hc
    rw [hs] at hc
    exact h name c hc
  · rw [hyes, if_pos rfl]
    intro name c hc
    obtain ⟨c₀, hc₀, hu⟩ := updateClusterInfo_eq_some.1 hc
    by_cases hname : name = msg.clusterName
    · subst hname
      cases ha.entry.symm.trans hc₀
      obtain ⟨huniform, hremembered⟩ := h.accepted ha hyes hsize
      refine uniform_pass huniform (hpos _) ?_ hu
      rw [summarize_nodes]
      rw [summarize_eq]
      exact hremembered
    · rw [ha.others name hname] at hc₀
      obtain ⟨huniform, hremembered, -⟩ := h name c₀ hc₀
      exact uniform_pass huniform (hpos name) (.inl hremembered) hu

theorem Matched.step {w w' : Watch} {event : InspectorEvent} (h : w.inspector.Matched size)
    (hpos : ∀ name, 0 < size name)
    (hsize : ∀ now msg, event = .message now msg → msg.clusterSize = size msg.clusterName)
    (hs : w.step limit event = some w') : w'.inspector.Matched size := by
  cases event with
  | refresh now =>
    rw [Watch.step_refresh hs]
    exact h.updateClusterInfo hpos
  | message now msg =>
    rw [Watch.step_message hs]
    exact h.message hpos (hsize now msg rfl)

end Inspector

/-! ## Clusters that report -/

namespace Monitor

variable {cfg : String → Config} {limit : Nat} {m m' : Monitor} {h h' : List Monitor}
  {msg : InspectorMsg} {name : String} {cluster : ClusterInfo}

/-- What a node of its cluster has said about itself, at some moment. -/
def Reported (cfg : String → Config) (h : List Monitor) (msg : InspectorMsg) : Prop :=
  msg.id ∈ (cfg msg.clusterName).ids ∧ ∃ m ∈ h,
    msg = ((m.clusters msg.clusterName).nodes msg.id).inspectorMessageRequested msg.clusterName
      msg.stamp

theorem Reported.mono (hmsg : Reported cfg h msg) (hs : h ⊆ h') : Reported cfg h' msg := by
  obtain ⟨hid, m, hm, heq⟩ := hmsg
  exact ⟨hid, m, hs hm, heq⟩

theorem inspectorState_eq_leader {st : StateType} :
    st.inspectorState = InspectorMsg.leader ↔ st = .leader := by
  cases st <;> decide

/-- What a cluster of the inspector shows comes from its nodes. -/
structure Shown (cfg : String → Config) (h : List Monitor) (name : String)
    (cluster : ClusterInfo) : Prop where
  /-- A row is what its node was. -/
  rows : ∀ (id : Nat) (node : NodeInfo), cluster.nodes[id]? = some node →
    id ∈ (cfg name).ids ∧ ∃ t ∈ h, ∃ stamp, node = (NodeInfo.new id).report
      (((t.clusters name).nodes id).inspectorMessageRequested name stamp)
  /-- The leader that is shown has led. -/
  leader : cluster.leaderExist = true → cluster.leader ∈ (cfg name).ids ∧ ∃ t ∈ h,
    ((t.clusters name).nodes cluster.leader).isActivated = true ∧
    ((t.clusters name).nodes cluster.leader).store.currentTerm ≤ cluster.term
  /-- A node has had the term that is shown. -/
  term : ∃ i ∈ (cfg name).ids, ∃ t ∈ h,
    ((t.clusters name).nodes i).store.currentTerm = cluster.term

/-- A step leaves a cluster alone or is a step of it. -/
theorem cluster_step {a : MonitorAction} (hs : step cfg limit m a = some m') (name : String) :
    m'.clusters name = m.clusters name ∨
      ∃ b, Cluster.step (cfg name) (m.clusters name) b = some (m'.clusters name) := by
  cases a with
  | cluster other a =>
    obtain ⟨s, hstep, rfl⟩ := Option.map_eq_some_iff.1 hs
    by_cases hname : name = other
    · subst hname
      refine .inr ⟨a, ?_⟩
      simp only [Function.update_self]
      exact hstep
    · exact .inl (Function.update_of_ne hname ..)
  | publish other i stamp =>
    obtain ⟨-, hs⟩ := Option.ite_none_right_eq_some.1 hs
    exact .inl (Option.some.inj hs ▸ rfl)
  | deliver k now =>
    unfold step at hs
    simp only at hs
    split at hs
    · cases hs
    · obtain ⟨w, -, rfl⟩ := Option.map_eq_some_iff.1 hs
      exact .inl rfl
  | lose k =>
    obtain ⟨-, hs⟩ := Option.ite_none_right_eq_some.1 hs
    exact .inl (Option.some.inj hs ▸ rfl)
  | refresh now =>
    obtain ⟨w, -, rfl⟩ := Option.map_eq_some_iff.1 hs
    exact .inl rfl

/-- The states of a cluster are those of a run. -/
theorem cluster_run (hr : MonitorRun cfg limit h) (name : String) :
    ∃ k, ClusterRun (cfg name) (fun _ _ => True) k ∧
      ∀ s, s ∈ k ↔ ∃ m ∈ h, m.clusters name = s := by
  have hstep : ∀ (m : Monitor) (a : MonitorAction) (m' : Monitor), True →
      (system cfg limit).step m a = some m' → m'.clusters name = m.clusters name ∨
        ∃ b, True ∧ (Cluster.system (cfg name)).step (m.clusters name) b =
          some (m'.clusters name) := by
    intro m a m' _ hs
    exact (cluster_step hs name).imp_right fun ⟨b, hb⟩ => ⟨b, trivial, hb⟩
  obtain ⟨k, hk, -, hmem⟩ := hr.project (A := Cluster.system (cfg name)) (·.clusters name)
    (fun _ _ => True) rfl hstep
  exact ⟨k, hk, hmem⟩

theorem cluster_ok (hr : MonitorRun cfg limit h) (hm : m ∈ h) (name : String) :
    Cluster.Ok (cfg name) (m.clusters name) := by
  obtain ⟨k, hk, hmem⟩ := cluster_run hr name
  exact hk.ok _ ((hmem _).2 ⟨m, hm, rfl⟩)

/-- An event of the inspector. -/
theorem watch_step {a : MonitorAction} (hs : step cfg limit m a = some m') :
    m'.watch = m.watch ∨ ∃ event, m.watch.step limit event = some m'.watch ∧
      ∀ now msg, event = .message now msg → msg ∈ m.topic := by
  cases a with
  | cluster other a =>
    obtain ⟨s, -, rfl⟩ := Option.map_eq_some_iff.1 hs
    exact .inl rfl
  | publish name i stamp =>
    obtain ⟨-, hs⟩ := Option.ite_none_right_eq_some.1 hs
    exact .inl (Option.some.inj hs ▸ rfl)
  | deliver k now =>
    unfold step at hs
    simp only at hs
    split at hs
    · cases hs
    · rename_i msg hk
      obtain ⟨w, hw, rfl⟩ := Option.map_eq_some_iff.1 hs
      refine .inr ⟨_, hw, fun _ p hp => ?_⟩
      cases hp
      exact List.mem_of_getElem? hk
  | lose k =>
    obtain ⟨-, hs⟩ := Option.ite_none_right_eq_some.1 hs
    exact .inl (Option.some.inj hs ▸ rfl)
  | refresh now =>
    obtain ⟨w, hw, rfl⟩ := Option.map_eq_some_iff.1 hs
    exact .inr ⟨_, hw, fun _ p hp => by cases hp⟩

/-- What the inspector has is what nodes have said. -/
structure Honest (cfg : String → Config) (h : List Monitor) (m : Monitor) : Prop where
  topic : ∀ msg ∈ m.topic, Reported cfg h msg
  inspector : m.watch.inspector.Backed (Reported cfg h)

/-- The topic after a step. -/
theorem topic_step {a : MonitorAction} (hr : MonitorRun cfg limit (m :: h))
    (hs : step cfg limit m a = some m') :
    ∀ msg ∈ m'.topic, msg ∈ m.topic ∨ Reported cfg (m :: h) msg := by
  cases a with
  | cluster other a =>
    obtain ⟨s, -, rfl⟩ := Option.map_eq_some_iff.1 hs
    exact fun _ => .inl
  | publish name i stamp =>
    obtain ⟨hi, hs⟩ := Option.ite_none_right_eq_some.1 hs
    obtain rfl := Option.some.inj hs
    refine fun msg hmsg => (List.mem_append.1 hmsg).imp_right fun hmsg => ?_
    rw [List.mem_singleton.1 hmsg]
    have hid : ((m.clusters name).nodes i).nodeId = i :=
      ((cluster_ok hr (.head _) name).nodes i hi).nodeId
    unfold Reported
    simp only [Node.inspectorMessageRequested, hid]
    exact ⟨hi, m, .head _, by rw [hid]⟩
  | deliver k now =>
    unfold step at hs
    simp only at hs
    split at hs
    · cases hs
    · obtain ⟨w, -, rfl⟩ := Option.map_eq_some_iff.1 hs
      exact fun _ hp => .inl (List.mem_of_mem_eraseIdx hp)
  | lose k =>
    obtain ⟨-, hs⟩ := Option.ite_none_right_eq_some.1 hs
    obtain rfl := Option.some.inj hs
    exact fun _ hp => .inl (List.mem_of_mem_eraseIdx hp)
  | refresh now =>
    obtain ⟨w, -, rfl⟩ := Option.map_eq_some_iff.1 hs
    exact fun _ => .inl

theorem Honest.step {a : MonitorAction} (hr : MonitorRun cfg limit (m :: h))
    (hm : Honest cfg (m :: h) m) (hs : Monitor.step cfg limit m a = some m') :
    Honest cfg (m' :: m :: h) m' := by
  have hgrow : ∀ msg, Reported cfg (m :: h) msg → Reported cfg (m' :: m :: h) msg :=
    fun msg hmsg => hmsg.mono (List.subset_cons_self ..)
  have hinspector := hm.inspector.mono hgrow
  refine ⟨fun msg hmsg => hgrow msg ?_, ?_⟩
  · rcases topic_step hr hs msg hmsg with hold | hnew
    · exact hm.topic msg hold
    · exact hnew
  · rcases watch_step hs with heq | ⟨event, hw, hevent⟩
    · rw [heq]
      exact hinspector
    · exact hinspector.step (fun now msg he => hgrow msg (hm.topic msg (hevent now msg he))) hw

theorem honest (hr : MonitorRun cfg limit (m :: h)) : Honest cfg (m :: h) m := by
  refine hr.history (P := fun
    | [] => True
    | m :: h => Honest cfg (m :: h) m) ?_ fun m a m' h hr hm _ hs => hm.step hr hs
  refine ⟨nofun, fun name cluster hc => ?_⟩
  simp [system, Inspector.Watch.system] at hc

/-- What is shown of a cluster. -/
theorem shown (hr : MonitorRun cfg limit (m :: h))
    (hc : m.watch.inspector.clusters[name]? = some cluster) : Shown cfg (m :: h) name cluster := by
  obtain ⟨hrows, hterm, hleader⟩ := (honest hr).inspector name cluster hc
  refine ⟨fun id node hn => ?_, fun hexist => ?_, ?_⟩
  · obtain ⟨msg, ⟨hid, t, ht, heq⟩, rfl, rfl, hnode⟩ := hrows id node hn
    exact ⟨hid, t, ht, msg.stamp, heq ▸ hnode⟩
  · obtain ⟨msg, ⟨hid, t, ht, heq⟩, rfl, hl, hstate, hle⟩ := hleader hexist
    rw [← hl]
    rw [heq] at hstate hle
    have hst := inspectorState_eq_leader.1 hstate
    exact ⟨hid, t, ht, ((cluster_ok hr ht _).nodes _ hid).aligned.isActivated.2 hst, hle⟩
  · obtain ⟨msg, ⟨hid, t, ht, heq⟩, rfl, hT⟩ := hterm
    rw [heq] at hT
    exact ⟨msg.id, hid, t, ht, hT⟩

/-- A cluster whose nodes report has a node. -/
theorem Reported.length_pos (hmsg : Reported cfg h msg) :
    0 < (cfg msg.clusterName).ids.length :=
  List.length_pos_of_mem hmsg.1

theorem Reported.clusterSize (hr : MonitorRun cfg limit h) (hmsg : Reported cfg h msg) :
    msg.clusterSize = (cfg msg.clusterName).ids.length := by
  obtain ⟨hid, t, ht, heq⟩ := hmsg
  rw [heq]
  exact ((cluster_ok hr ht _).nodes _ hid).clusterSize

/-- The inspector knows the sizes of the clusters. -/
theorem matched (hr : MonitorRun cfg limit (m :: h)) :
    m.watch.inspector.Matched fun name => max 1 (cfg name).ids.length := by
  refine hr.history (P := fun
    | [] => True
    | m :: _ => m.watch.inspector.Matched fun name => max 1 (cfg name).ids.length) ?_ ?_
  · intro name cluster hc
    simp [system, Inspector.Watch.system] at hc
  · intro m a m' h hr hm _ hs
    rcases watch_step hs with heq | ⟨event, hw, hevent⟩
    · change m'.watch.inspector.Matched _
      rw [heq]
      exact hm
    · refine Inspector.Matched.step hm (fun name => by omega) (fun now msg he => ?_) hw
      have hmsg := (honest hr).topic msg (hevent now msg he)
      have hpos := hmsg.length_pos
      rw [hmsg.clusterSize hr]
      omega

end Monitor

/-- **What the inspector shows has been so**, whatever is lost, late or out of order: the rows, the
leader and the term of a cluster come from its nodes, and as long as no term is used up no rows,
over all moments, show two leaders of one term. -/
theorem inspector_shows_past {cfg : String → Config} {limit : Nat} {m : Monitor} {h : List Monitor}
    (hr : MonitorRun cfg limit (m :: h)) {name : String} {cluster : ClusterInfo}
    (hc : m.watch.inspector.clusters[name]? = some cluster) :
    Monitor.Shown cfg (m :: h) name cluster ∧
    ((∀ t ∈ m :: h, ∀ i ∈ (cfg name).ids,
        ((t.clusters name).nodes i).store.currentTerm < 2 ^ 64 - 1) →
    ∀ t ∈ m :: h, ∀ cluster', t.watch.inspector.clusters[name]? = some cluster' →
      ∀ (i j : Nat) (a b : NodeInfo), cluster.nodes[i]? = some a → cluster'.nodes[j]? = some b →
        a.state = InspectorMsg.leader → b.state = InspectorMsg.leader → a.term = b.term →
        i = j) := by
  refine ⟨Monitor.shown hr hc, fun hterm t ht cluster' hc' i j a b ha hb hla hlb heq => ?_⟩
  obtain ⟨hi, u, hu, stamp, rfl⟩ := (Monitor.shown hr hc).rows i a ha
  obtain ⟨newer, older, hsplit⟩ := List.append_of_mem ht
  have hsuf : t :: older <:+ m :: h := ⟨newer, hsplit.symm⟩
  obtain ⟨hj, v, hv, stamp', rfl⟩ := (Monitor.shown (hr.of_suffix hsuf (by simp)) hc').rows j b hb
  obtain ⟨k, hk, hmem⟩ := Monitor.cluster_run hr name
  have hwraps : ClusterRun (cfg name) (Cluster.Avoids Node.Wraps) k := by
    refine (Cluster.avoids_wraps hk fun s hs i hi => ?_).mono fun _ _ hok => hok.2
    obtain ⟨t, ht, rfl⟩ := (hmem s).1 hs
    exact hterm t ht i hi
  exact Cluster.leaders_eq hwraps ((hmem _).2 ⟨u, hu, rfl⟩)
    ((hmem _).2 ⟨v, hsuf.subset hv, rfl⟩) hi hj (Monitor.inspectorState_eq_leader.1 hla)
    (Monitor.inspectorState_eq_leader.1 hlb) heq

/-- Two nodes: node 0 leads term 1 and reports it, then node 1 leads term 2. Node 0 is still shown
as the leader, and has been active in a term up to the one shown. -/
theorem inspector_shows_past_leader :
    ∃ m h, MonitorRun (fun _ => .range 2 (by decide)) 1500000000 (m :: h) ∧
      ((m.clusters "hello").nodes 1).isActivated = true ∧
      ∃ cluster, m.watch.inspector.clusters["hello"]? = some cluster ∧
        cluster.leaderExist = true ∧ cluster.leader = 0 ∧
        Monitor.Shown (fun _ => .range 2 (by decide)) (m :: h) "hello" cluster := by
  obtain ⟨h, hr, hc⟩ := Lib.System.exists_run
    (S := Monitor.system (fun _ => .range 2 (by decide)) 1500000000) (fun _ _ => True)
    [.cluster "hello" (.electionTimer 0), .cluster "hello" (.deliver 0),
      .cluster "hello" (.deliver 0), .publish "hello" 0 1, .cluster "hello" (.electionTimer 1),
      .cluster "hello" (.deliver 0), .cluster "hello" (.deliver 0), .deliver 0 2]
    (fun
      | m :: _ => ((m.clusters "hello").nodes 1).isActivated &&
        m.watch.inspector.clusters["hello"]?.any fun cluster =>
          cluster.leaderExist && decide (cluster.leader = 0)
      | [] => false) (by decide +kernel)
  split at hc
  · rename_i m h
    simp only [Bool.and_eq_true, decide_eq_true_eq, Option.any_eq_true] at hc
    obtain ⟨hact, cluster, hcluster, hexist, hleader⟩ := hc
    exact ⟨m, h, hr, hact, cluster, hcluster, hexist, hleader,
      (inspector_shows_past hr hcluster).1⟩
  · cases hc

end Foros
