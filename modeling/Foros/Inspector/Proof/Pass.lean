import Foros.Inspector.Clusters
import Foros.Lib.Record
import Foros.Lib.Sweep

/-!
# Passes over the clusters

What `update_cluster_info` leaves of a cluster (`Passed`), and what an accepted message makes of one
(`storeMessage_cases`). The loop compares each size with the one remembered from the pass before,
not with the node's before it: it finds exactly the mismatches where the sizes are `Comparable`
(`size_mismatches_flagged`).
-/

namespace Foros

namespace Inspector

open Lib

variable {limit now : Nat}

/-- What is updated later is outdated later. -/
theorem isOutdated_mono {time time' : Nat} (h : time ≤ time')
    (hlive : isOutdated limit now time = false) : isOutdated limit now time' = false := by
  unfold isOutdated at hlive ⊢
  rw [decide_eq_false_iff_not, not_not] at hlive ⊢
  omega

/-! ## The loop over the nodes -/

/-- The nodes of a list that the loop keeps. -/
def live (limit now : Nat) (entries : List (Nat × NodeInfo)) : List NodeInfo :=
  (entries.filter fun p => !isOutdated limit now p.2.lastUpdated).map (·.2)

/-- Whether the loop, with the size `size` of the node before, meets a size other than the
remembered one. -/
def differs (remembered size : Nat) : List NodeInfo → Bool
  | [] => false
  | node :: nodes =>
    decide (size ≠ 0 ∧ remembered ≠ node.size) || differs remembered node.size nodes

theorem updateNodeInfo_dead {node : NodeInfo} (h : isOutdated limit now node.lastUpdated = true)
    (id size : Nat) (cluster : ClusterInfo) :
    updateNodeInfo limit now (cluster, size) (id, node) =
      ({ cluster with
        leaderExist := cluster.leaderExist && !decide (cluster.leader = node.id)
        nodes := cluster.nodes.erase id }, size) := by
  unfold updateNodeInfo
  simp only [h, if_true]
  by_cases hl : cluster.leader = node.id <;> simp [hl]

theorem updateNodeInfo_live {node : NodeInfo} (h : isOutdated limit now node.lastUpdated = false)
    (id size : Nat) (cluster : ClusterInfo) :
    updateNodeInfo limit now (cluster, size) (id, node) =
      ({ cluster with
        sizeMismatched := cluster.sizeMismatched ||
          decide (size ≠ 0 ∧ cluster.size ≠ node.size) }, node.size) := by
  unfold updateNodeInfo
  simp only [h, Bool.false_eq_true, if_false]
  by_cases hs : size ≠ 0 ∧ cluster.size ≠ node.size <;> simp [hs]

/-- What the loop makes of a cluster, up to its last size. -/
def looped (limit now size : Nat) (entries : List (Nat × NodeInfo)) (cluster : ClusterInfo) :
    ClusterInfo :=
  { cluster with
    leaderExist := cluster.leaderExist && entries.all fun p =>
      !(isOutdated limit now p.2.lastUpdated && decide (cluster.leader = p.2.id))
    sizeMismatched := cluster.sizeMismatched || differs cluster.size size (live limit now entries)
    nodes := sweep (fun node => isOutdated limit now node.lastUpdated) entries cluster.nodes }

/-- **The loop over the nodes.** -/
theorem foldl_updateNodeInfo : ∀ (entries : List (Nat × NodeInfo)) (cluster : ClusterInfo)
    (size : Nat), (entries.foldl (updateNodeInfo limit now) (cluster, size)).1 =
      looped limit now size entries cluster
  | [], cluster, size => by
    unfold looped live
    simp [differs, sweep_nil]
  | (id, node) :: entries, cluster, size => by
    rw [List.foldl_cons]
    unfold looped live
    cases hdead : isOutdated limit now node.lastUpdated with
    | true =>
      rw [updateNodeInfo_dead hdead, foldl_updateNodeInfo entries,
        sweep_cons_dead (p := (id, node)) hdead]
      simp [looped, live, hdead, Bool.and_assoc]
    | false =>
      rw [updateNodeInfo_live hdead, foldl_updateNodeInfo entries,
        sweep_cons_live (p := (id, node)) hdead]
      simp [looped, live, hdead, differs, Bool.or_assoc]

/-- What a pass leaves of a cluster that is not outdated. -/
structure Passed (limit now : Nat) (cluster cluster' : ClusterInfo) : Prop where
  term : cluster'.term = cluster.term
  leader : cluster'.leader = cluster.leader
  lastUpdated : cluster'.lastUpdated = cluster.lastUpdated
  nodes : ∀ id : Nat, cluster'.nodes[id]? =
    cluster.nodes[id]?.filter fun node : NodeInfo => !isOutdated limit now node.lastUpdated
  leaderExist : cluster'.leaderExist = true ↔ cluster.leaderExist = true ∧
    ∀ (id : Nat) (node : NodeInfo), cluster.nodes[id]? = some node →
      isOutdated limit now node.lastUpdated = true → cluster.leader ≠ node.id
  sizeMismatched : cluster'.sizeMismatched =
    differs cluster.size 0 (live limit now cluster.nodes.toList)

theorem updateCluster_eq_none {cluster : ClusterInfo} :
    updateCluster limit now cluster = none ↔
      isOutdated limit now cluster.lastUpdated = true := by
  unfold updateCluster
  simp only
  split <;> simp_all

/-- A cluster survives its pass exactly when it is not outdated. -/
theorem exists_updateCluster {cluster : ClusterInfo} :
    (∃ cluster', updateCluster limit now cluster = some cluster') ↔
      isOutdated limit now cluster.lastUpdated = false := by
  rw [← Option.ne_none_iff_exists', ne_eq, updateCluster_eq_none, Bool.not_eq_true]

theorem updateCluster_passed {cluster cluster' : ClusterInfo}
    (h : updateCluster limit now cluster = some cluster') :
    Passed limit now cluster cluster' := by
  have hfold : (cluster.nodes.toList.foldl (updateNodeInfo limit now)
      ({ cluster with sizeMismatched := false }, 0)).1 = _ := foldl_updateNodeInfo ..
  unfold updateCluster at h
  simp only at h
  split at h
  · cases h
  · cases h
    simp only [hfold, looped]
    refine ⟨rfl, rfl, rfl, fun id => getElem?_sweep _ _ id, ?_, Bool.false_or _⟩
    simp only [Bool.and_eq_true, List.all_eq_true, Bool.not_eq_true', Bool.and_eq_false_iff,
      decide_eq_false_iff_not]
    refine and_congr_right fun _ => ⟨fun hall id node hn hd => ?_, fun hall p hp => ?_⟩
    · have hp := Std.TreeMap.mem_toList_iff_getElem?_eq_some.2 hn
      exact (hall (id, node) hp).resolve_left (by simp [hd])
    · have hn := Std.TreeMap.mem_toList_iff_getElem?_eq_some.1 hp
      cases hd : isOutdated limit now p.2.lastUpdated with
      | false => exact .inl rfl
      | true => exact .inr (hall p.1 p.2 hn hd)

theorem getElem?_passed {cluster cluster' : ClusterInfo}
    (hu : updateCluster limit now cluster = some cluster') {id : Nat} {node : NodeInfo} :
    cluster'.nodes[id]? = some node ↔
      cluster.nodes[id]? = some node ∧ isOutdated limit now node.lastUpdated = false := by
  rw [(updateCluster_passed hu).nodes, Option.filter_eq_some_iff, Bool.not_eq_true']

theorem getElem?_updateClusterInfo (s : Inspector) (name : String) :
    (updateClusterInfo limit now s).clusters[name]? =
      s.clusters[name]?.bind (updateCluster limit now) := by
  unfold updateClusterInfo
  rw [Std.TreeMap.getElem?_filterMap']

theorem updateClusterInfo_eq_some {s : Inspector} {name : String} {cluster' : ClusterInfo} :
    (updateClusterInfo limit now s).clusters[name]? = some cluster' ↔
      ∃ cluster, s.clusters[name]? = some cluster ∧
        updateCluster limit now cluster = some cluster' := by
  rw [getElem?_updateClusterInfo, Option.bind_eq_some_iff]

/-! ## Messages -/

/-- **The summary**: the younger time, the larger term, and the node where it leads in it. -/
theorem summarize_eq (node : NodeInfo) (cluster : ClusterInfo) :
    cluster.summarize node = { cluster with
      lastUpdated := max cluster.lastUpdated node.lastUpdated
      term := max cluster.term node.term
      leader := if cluster.term ≤ node.term ∧ node.state = InspectorMsg.leader then node.id
        else cluster.leader
      leaderExist := decide (cluster.term ≤ node.term ∧ node.state = InspectorMsg.leader) ||
        cluster.leaderExist } := by
  have hnew : cluster.lastUpdated < node.lastUpdated →
      max cluster.lastUpdated node.lastUpdated = node.lastUpdated :=
    fun h => Nat.max_eq_right (Nat.le_of_lt h)
  have hold : ¬ cluster.lastUpdated < node.lastUpdated →
      max cluster.lastUpdated node.lastUpdated = cluster.lastUpdated :=
    fun h => Nat.max_eq_left (Nat.le_of_not_lt h)
  unfold ClusterInfo.summarize
  by_cases ht : cluster.term ≤ node.term
  · have hmax := Nat.max_eq_right ht
    by_cases hs : node.state = InspectorMsg.leader <;>
      by_cases hl : cluster.lastUpdated < node.lastUpdated <;>
      simp only [ht, hs, hl, hmax, hnew, hold, if_true, if_false, and_true, and_false,
        decide_true, decide_false, Bool.true_or, Bool.false_or, not_false_eq_true]
  · have hmax := Nat.max_eq_left (Nat.le_of_not_le ht)
    by_cases hl : cluster.lastUpdated < node.lastUpdated <;>
      simp only [ht, hl, hmax, hnew, hold, if_true, if_false, false_and, decide_false,
        Bool.false_or, not_false_eq_true]

@[simp] theorem summarize_nodes (node : NodeInfo) (cluster : ClusterInfo) :
    (cluster.summarize node).nodes = cluster.nodes := by
  rw [summarize_eq]

/-- The cluster that a message of the cluster `name` goes to: the one that is kept, or a new one in
place of none or of an outdated one. -/
def Target (limit now : Nat) (name : String) (s : Inspector) (cluster : ClusterInfo) : Prop :=
  s.clusters[name]? = some cluster ∧ isOutdated limit now cluster.lastUpdated = false ∨
    cluster = .new name ∧ ∀ c, s.clusters[name]? = some c →
      isOutdated limit now c.lastUpdated = true

theorem getClusterInfo_spec (limit now : Nat) (name : String) (s : Inspector) :
    Target limit now name s (getClusterInfo limit now name s).1 ∧
      ∀ k ≠ name, (getClusterInfo limit now name s).2.clusters[k]? = s.clusters[k]? := by
  have hinsert : ∀ k ≠ name, (s.clusters.insert name (.new name))[k]? = s.clusters[k]? := by
    intro k hk
    rw [Std.TreeMap.getElem?_insert, if_neg (by simpa using hk.symm)]
  unfold getClusterInfo
  cases hc : s.clusters[name]? with
  | none => exact ⟨.inr ⟨rfl, fun c h => by rw [hc] at h; cases h⟩, hinsert⟩
  | some cluster =>
    simp only
    split
    · rename_i hd
      exact ⟨.inr ⟨rfl, fun c h => by rw [hc] at h; cases h; exact hd⟩, hinsert⟩
    · rename_i hd
      exact ⟨.inl ⟨hc, by simpa using hd⟩, fun _ _ => rfl⟩

theorem getNodeInfo_spec (cluster : ClusterInfo) (id : Nat) :
    (cluster.nodes[id]? = some (getNodeInfo cluster id).1 ∧
        (getNodeInfo cluster id).2 = cluster) ∨
      cluster.nodes[id]? = none ∧ (getNodeInfo cluster id).1 = .new id ∧
        (getNodeInfo cluster id).2 =
          { cluster with nodes := cluster.nodes.insert id (.new id) } := by
  unfold getNodeInfo
  cases hn : cluster.nodes[id]? with
  | none => exact .inr ⟨rfl, rfl, rfl⟩
  | some node => exact .inl ⟨rfl, rfl⟩

/-- A message is accepted: its cluster gets the node as reported, and its summary is brought up to
date. -/
structure Accepted (limit now : Nat) (msg : InspectorMsg) (s s' : Inspector)
    (cluster : ClusterInfo) (node : NodeInfo) (nodes : Std.TreeMap Nat NodeInfo) : Prop where
  target : Target limit now msg.clusterName s cluster
  stamp : isOutdated limit now msg.stamp = false
  reported : ∃ old, (cluster.nodes[msg.id]? = some old ∨ old = .new msg.id) ∧
    node = old.report msg
  kept : ∀ id : Nat, nodes[id]? = if id = msg.id then some node else cluster.nodes[id]?
  entry : s'.clusters[msg.clusterName]? = some ({ cluster with nodes := nodes }.summarize node)
  others : ∀ name ≠ msg.clusterName, s'.clusters[name]? = s.clusters[name]?

/-- **A message is accepted or changes nothing.** -/
theorem storeMessage_cases (limit now : Nat) (msg : InspectorMsg) (s : Inspector) :
    ((storeMessage limit now msg s).1 = false ∧
        ∀ name : String, (storeMessage limit now msg s).2.clusters[name]? = s.clusters[name]?) ∨
      (storeMessage limit now msg s).1 = true ∧ ∃ cluster node nodes,
        Accepted limit now msg s (storeMessage limit now msg s).2 cluster node nodes := by
  obtain ⟨htarget, hothers⟩ := getClusterInfo_spec limit now msg.clusterName s
  unfold storeMessage
  generalize getClusterInfo limit now msg.clusterName s = r at htarget hothers
  obtain ⟨cluster, s₁⟩ := r
  have hnode := getNodeInfo_spec cluster msg.id
  simp only at htarget hothers ⊢
  generalize getNodeInfo cluster msg.id = r at hnode
  obtain ⟨old, cluster₁⟩ := r
  simp only at hnode ⊢
  have hinsert : ∀ (c : ClusterInfo), (s₁.clusters.insert msg.clusterName c)[msg.clusterName]? =
      some c ∧ ∀ name ≠ msg.clusterName,
        (s₁.clusters.insert msg.clusterName c)[name]? = s.clusters[name]? := by
    refine fun c => ⟨Std.TreeMap.getElem?_insert_self, fun name hne => ?_⟩
    rw [Std.TreeMap.getElem?_insert, if_neg (by simpa using hne.symm), hothers name hne]
  split
  · exact .inl ⟨rfl, fun _ => rfl⟩
  rename_i hstamp
  split
  · -- a younger node, so the cluster and the node were there before
    rename_i hyounger
    refine .inl ⟨rfl, fun name => ?_⟩
    rcases hnode with ⟨hn, rfl⟩ | ⟨-, rfl, -⟩
    · rcases htarget with ⟨hc, -⟩ | ⟨rfl, -⟩
      · by_cases hname : name = msg.clusterName
        · subst hname
          rw [hc]
          exact (hinsert _).1
        · exact (hinsert _).2 name hname
      · simp [ClusterInfo.new] at hn
    · exact absurd hyounger (Nat.not_lt_zero _)
  · refine .inr ⟨rfl, cluster, old.report msg, cluster₁.nodes.insert msg.id (old.report msg),
      htarget, by simpa using hstamp, ⟨old, ?_, rfl⟩, fun id => ?_, ?_, (hinsert _).2⟩
    · rcases hnode with ⟨hn, -⟩ | ⟨-, rfl, -⟩
      · exact .inl hn
      · exact .inr rfl
    · rw [Std.TreeMap.getElem?_insert]
      by_cases hid : id = msg.id
      · rw [if_pos (by simpa using hid.symm), if_pos hid]
      · rw [if_neg (by simpa using Ne.symm hid), if_neg hid]
        rcases hnode with ⟨-, rfl⟩ | ⟨-, -, rfl⟩
        · rfl
        · rw [Std.TreeMap.getElem?_insert, if_neg (by simpa using Ne.symm hid)]
    · rcases hnode with ⟨-, rfl⟩ | ⟨-, -, rfl⟩ <;> exact (hinsert _).1

/-! ## Properties of every node -/

/-- Every node of every cluster meets `P`. -/
def Each (P : String → Nat → NodeInfo → Prop) (s : Inspector) : Prop :=
  ∀ name cluster, s.clusters[name]? = some cluster →
    ∀ (id : Nat) (node : NodeInfo), cluster.nodes[id]? = some node → P name id node

variable {P P' : String → Nat → NodeInfo → Prop} {s s' : Inspector} {msg : InspectorMsg}
  {cluster cluster' : ClusterInfo} {node : NodeInfo} {nodes : Std.TreeMap Nat NodeInfo}

theorem Each.updateClusterInfo (h : s.Each P) : (updateClusterInfo limit now s).Each P := by
  intro name cluster' hc' id node hn
  obtain ⟨cluster, hc, hu⟩ := updateClusterInfo_eq_some.1 hc'
  exact h name cluster hc id node (getElem?_passed hu |>.1 hn).1

/-- A new cluster has no nodes. -/
theorem Each.target (h : s.Each P) {name : String} (ht : Target limit now name s cluster) {id : Nat}
    (hn : cluster.nodes[id]? = some node) : P name id node := by
  rcases ht with ⟨hc, -⟩ | ⟨rfl, -⟩
  · exact h name cluster hc id node hn
  · simp [ClusterInfo.new] at hn

theorem Each.accepted (h : s.Each P) (ha : Accepted limit now msg s s' cluster node nodes)
    (hold : ∀ name id n, P name id n → ¬ (name = msg.clusterName ∧ id = msg.id) → P' name id n)
    (hnew : P' msg.clusterName msg.id node) : s'.Each P' := by
  intro name c hc id n hn
  by_cases hname : name = msg.clusterName
  · subst hname
    rw [ha.entry] at hc
    cases hc
    rw [summarize_nodes, ha.kept] at hn
    by_cases hid : id = msg.id
    · rw [if_pos hid] at hn
      cases hn
      exact hid ▸ hnew
    · rw [if_neg hid] at hn
      exact hold _ _ _ (h.target ha.target hn) fun hboth => hid hboth.2
  · rw [ha.others name hname] at hc
    exact hold _ _ _ (h name c hc id n hn) fun hboth => hname hboth.1

theorem Each.congr (h : s.Each P) (hs : ∀ name : String, s'.clusters[name]? = s.clusters[name]?) :
    s'.Each P := by
  intro name cluster hc
  rw [hs] at hc
  exact h name cluster hc

/-! ## Sizes -/

/-- Two nodes of the cluster report different sizes. -/
def Disagrees (cluster : ClusterInfo) : Prop :=
  ∃ (i j : Nat) (a b : NodeInfo), cluster.nodes[i]? = some a ∧ cluster.nodes[j]? = some b ∧
    a.size ≠ b.size

/-- A pass leaves exactly the clusters and the nodes that are not outdated, and finds exactly the
clusters whose nodes disagree about the size. -/
structure PassCorrect (limit now : Nat) (s : Inspector) : Prop where
  clusters : ∀ name : String, name ∈ (updateClusterInfo limit now s).clusters ↔
    ∃ cluster, s.clusters[name]? = some cluster ∧
      isOutdated limit now cluster.lastUpdated = false
  nodes : ∀ (name : String) (cluster cluster' : ClusterInfo), s.clusters[name]? = some cluster →
    (updateClusterInfo limit now s).clusters[name]? = some cluster' →
      ∀ (id : Nat) (node : NodeInfo), cluster'.nodes[id]? = some node ↔
        cluster.nodes[id]? = some node ∧ isOutdated limit now node.lastUpdated = false
  mismatched : ∀ (name : String) (cluster' : ClusterInfo),
    (updateClusterInfo limit now s).clusters[name]? = some cluster' →
      (cluster'.sizeMismatched = true ↔ Disagrees cluster')

/-- The first of the nodes has the size remembered for the cluster, or there is no other, or among
the others one differs from the remembered size and one from the first. -/
def Comparable (remembered : Nat) : List NodeInfo → Prop
  | [] => True
  | node :: nodes => node.size = remembered ∨ nodes = [] ∨
      (∃ other ∈ nodes, other.size ≠ remembered) ∧ ∃ other ∈ nodes, other.size ≠ node.size

/-- The sizes of the nodes that are not outdated can be compared in every cluster that is not. -/
def PassComparable (limit now : Nat) (s : Inspector) : Prop :=
  ∀ (name : String) (cluster : ClusterInfo), s.clusters[name]? = some cluster →
    isOutdated limit now cluster.lastUpdated = false →
      Comparable cluster.size (live limit now cluster.nodes.toList)

instance (remembered : Nat) : (nodes : List NodeInfo) → Decidable (Comparable remembered nodes)
  | [] => inferInstanceAs (Decidable True)
  | _ :: _ => inferInstanceAs (Decidable (_ ∨ _ ∨ _))

instance (limit now : Nat) (s : Inspector) : Decidable (PassComparable limit now s) :=
  decidable_of_iff (∀ p ∈ s.clusters.toList, isOutdated limit now p.2.lastUpdated = false →
      Comparable p.2.size (live limit now p.2.nodes.toList)) <| by
    simp only [PassComparable, Prod.forall, Std.TreeMap.mem_toList_iff_getElem?_eq_some]

theorem mem_live {cluster : ClusterInfo} {node : NodeInfo} :
    node ∈ live limit now cluster.nodes.toList ↔ ∃ id : Nat, cluster.nodes[id]? = some node ∧
      isOutdated limit now node.lastUpdated = false := by
  unfold live
  simp only [List.mem_map, List.mem_filter, Bool.not_eq_true', Prod.exists,
    Std.TreeMap.mem_toList_iff_getElem?_eq_some]
  constructor
  · rintro ⟨id, n, ⟨hn, hd⟩, rfl⟩
    exact ⟨id, hn, hd⟩
  · rintro ⟨id, hn, hd⟩
    exact ⟨id, node, ⟨hn, hd⟩, rfl⟩

/-- Once a size has been read, every other one is compared with the remembered one. -/
theorem differs_iff {remembered : Nat} : ∀ {size : Nat} {nodes : List NodeInfo}, size ≠ 0 →
    (∀ node ∈ nodes, 0 < node.size) →
      (differs remembered size nodes = true ↔ ∃ node ∈ nodes, node.size ≠ remembered)
  | _, [], _, _ => by simp [differs]
  | size, node :: nodes, hs, hpos => by
    have hrest : differs remembered node.size nodes = true ↔ _ :=
      differs_iff (Nat.pos_iff_ne_zero.1 (hpos node (.head _))) fun n hn => hpos n (.tail _ hn)
    unfold differs
    simp only [Bool.or_eq_true, decide_eq_true_eq, hrest, List.exists_mem_cons_iff]
    exact or_congr_left (and_iff_right hs |>.trans ne_comm)

/-- **The loop finds a mismatch exactly where the sizes can be compared.** -/
theorem differs_correct {remembered : Nat} {nodes : List NodeInfo}
    (hpos : ∀ node ∈ nodes, 0 < node.size) :
    (differs remembered 0 nodes = true ↔ ∃ a ∈ nodes, ∃ b ∈ nodes, a.size ≠ b.size) ↔
      Comparable remembered nodes := by
  cases nodes with
  | nil => simp [differs, Comparable]
  | cons first rest =>
    have hfound : differs remembered 0 (first :: rest) = true ↔
        ∃ node ∈ rest, node.size ≠ remembered := by
      unfold differs
      simp only [ne_eq, not_true_eq_false, false_and, decide_false, Bool.false_or]
      exact differs_iff (Nat.pos_iff_ne_zero.1 (hpos first (.head _)))
        fun n hn => hpos n (.tail _ hn)
    have hdisagree : (∃ a ∈ first :: rest, ∃ b ∈ first :: rest, a.size ≠ b.size) ↔
        ∃ node ∈ rest, node.size ≠ first.size := by
      constructor
      · rintro ⟨a, ha, b, hb, hne⟩
        by_cases hfirst : a.size = first.size
        · rcases List.mem_cons.1 hb with rfl | hb
          · exact absurd hfirst hne
          · exact ⟨b, hb, fun h => hne (hfirst.trans h.symm)⟩
        · rcases List.mem_cons.1 ha with rfl | ha
          · exact absurd rfl hfirst
          · exact ⟨a, ha, hfirst⟩
      · rintro ⟨node, hn, hne⟩
        exact ⟨node, .tail _ hn, first, .head _, hne⟩
    rw [hfound, hdisagree]
    unfold Comparable
    by_cases hsame : first.size = remembered
    · exact iff_of_true (by rw [hsame]) (.inl hsame)
    cases rest with
    | nil => simp
    | cons second rest =>
      -- the second node differs from the remembered size or from the first
      simp only [hsame, false_or, reduceCtorEq]
      refine ⟨fun hiff => ?_, fun hboth => iff_of_true hboth.1 hboth.2⟩
      by_cases hsecond : second.size = remembered
      · have hne : ∃ node ∈ second :: rest, node.size ≠ first.size :=
          ⟨second, .head _, fun h => hsame (h.symm.trans hsecond)⟩
        exact ⟨hiff.2 hne, hne⟩
      · have hne : ∃ node ∈ second :: rest, node.size ≠ remembered := ⟨second, .head _, hsecond⟩
        exact ⟨hne, hiff.1 hne⟩

/-- The nodes of a cluster that survives disagree where those that are not outdated do. -/
theorem disagrees_passed (hu : updateCluster limit now cluster = some cluster') :
    Disagrees cluster' ↔ ∃ a ∈ live limit now cluster.nodes.toList,
      ∃ b ∈ live limit now cluster.nodes.toList, a.size ≠ b.size := by
  unfold Disagrees
  simp only [getElem?_passed hu, mem_live]
  constructor
  · rintro ⟨i, j, a, b, ha, hb, hne⟩
    exact ⟨a, ⟨i, ha⟩, b, ⟨j, hb⟩, hne⟩
  · rintro ⟨a, ⟨i, ha⟩, b, ⟨j, hb⟩, hne⟩
    exact ⟨i, j, a, b, ha, hb, hne⟩

/-- **The flag of one cluster is right exactly where its sizes can be compared.** -/
theorem sizeMismatched_passed (hu : updateCluster limit now cluster = some cluster')
    (hpos : ∀ (id : Nat) (node : NodeInfo), cluster.nodes[id]? = some node → 0 < node.size) :
    (cluster'.sizeMismatched = true ↔ Disagrees cluster') ↔
      Comparable cluster.size (live limit now cluster.nodes.toList) := by
  rw [(updateCluster_passed hu).sizeMismatched, disagrees_passed hu]
  refine differs_correct fun node hn => ?_
  obtain ⟨id, hn, -⟩ := mem_live.1 hn
  exact hpos id node hn

/-- **A pass is correct exactly where the sizes can be compared.** -/
theorem passCorrect_iff (hsized : s.Each fun _ _ node => 0 < node.size) :
    PassCorrect limit now s ↔ PassComparable limit now s := by
  constructor
  · intro h name cluster hc hlate
    obtain ⟨cluster', hu⟩ := exists_updateCluster.2 hlate
    have hc' := updateClusterInfo_eq_some.2 ⟨cluster, hc, hu⟩
    exact (sizeMismatched_passed hu (hsized name cluster hc)).1 (h.mismatched name cluster' hc')
  · intro h
    refine ⟨fun name => ?_, fun name cluster cluster' hc hc' => ?_, fun name cluster' hc' => ?_⟩
    · rw [Std.TreeMap.mem_iff_isSome_getElem?, Option.isSome_iff_exists]
      constructor
      · rintro ⟨cluster', hc'⟩
        obtain ⟨cluster, hc, hu⟩ := updateClusterInfo_eq_some.1 hc'
        exact ⟨cluster, hc, exists_updateCluster.1 ⟨cluster', hu⟩⟩
      · rintro ⟨cluster, hc, hlate⟩
        obtain ⟨cluster', hu⟩ := exists_updateCluster.2 hlate
        exact ⟨cluster', updateClusterInfo_eq_some.2 ⟨cluster, hc, hu⟩⟩
    · obtain ⟨c, hc₂, hu⟩ := updateClusterInfo_eq_some.1 hc'
      cases hc.symm.trans hc₂
      exact fun id node => getElem?_passed hu
    · obtain ⟨cluster, hc, hu⟩ := updateClusterInfo_eq_some.1 hc'
      have hlate := exists_updateCluster.1 ⟨cluster', hu⟩
      exact (sizeMismatched_passed hu (hsized name cluster hc)).2 (h name cluster hc hlate)

/-! ## Messages and sizes -/

/-- An accepted message leaves its node with the size it says. -/
theorem Each.storeMessage_size (h : s.Each fun _ _ node => 0 < node.size)
    (hsize : 0 < msg.clusterSize) :
    (storeMessage limit now msg s).2.Each fun _ _ node => 0 < node.size := by
  rcases storeMessage_cases limit now msg s with ⟨-, hs⟩ | ⟨-, cluster, node, nodes, ha⟩
  · exact h.congr hs
  · obtain ⟨old, -, rfl⟩ := ha.reported
    exact h.accepted ha (fun _ _ _ hp _ => hp) hsize

theorem inspectorMessageReceived_eq (limit now : Nat) (msg : InspectorMsg) (s : Inspector) :
    inspectorMessageReceived limit now msg s =
      if (storeMessage limit now msg s).1 then
        updateClusterInfo limit now (storeMessage limit now msg s).2
      else (storeMessage limit now msg s).2 := rfl

end Inspector

/-! ## Runs -/

/-- A message says that its cluster has a node at least. -/
def InspectorEvent.HasSize : InspectorEvent → Prop
  | .message _ msg => 0 < msg.clusterSize
  | .refresh _ => True

instance (event : InspectorEvent) : Decidable event.HasSize := by
  cases event <;> unfold InspectorEvent.HasSize <;> infer_instance

namespace Inspector.Watch

variable {limit : Nat} {w w' : Watch} {event : InspectorEvent}

theorem step_refresh {now : Nat} (hs : w.step limit (.refresh now) = some w') :
    w' = { w with clock := now, inspector := updateClusterInfo limit now w.inspector } := by
  unfold step at hs
  split at hs
  · cases hs
  · exact (Option.some.inj hs).symm

theorem step_message {now : Nat} {msg : InspectorMsg}
    (hs : w.step limit (.message now msg) = some w') :
    w' = ⟨now, inspectorMessageReceived limit now msg w.inspector,
      if (storeMessage limit now msg w.inspector).1 then
        Function.update w.reports msg.clusterName
          (Function.update (w.reports msg.clusterName) msg.id (some msg))
      else w.reports⟩ := by
  unfold step at hs
  split at hs
  · cases hs
  · exact (Option.some.inj hs).symm

/-- The sizes before an event are those of its pass. -/
theorem passes_sized (h : w.inspector.Each fun _ _ node => 0 < node.size)
    (hsize : event.HasSize) {s : Inspector} (hs : s ∈ w.passes limit event) :
    s.Each fun _ _ node => 0 < node.size := by
  cases event with
  | refresh now =>
    cases hs
    exact h
  | message now msg =>
    unfold passes at hs
    simp only [Option.mem_ite_none_right, Option.mem_some] at hs
    obtain ⟨-, rfl⟩ := hs
    exact h.storeMessage_size hsize

theorem step_sized (h : w.inspector.Each fun _ _ node => 0 < node.size) (hsize : event.HasSize)
    (hs : w.step limit event = some w') : w'.inspector.Each fun _ _ node => 0 < node.size := by
  cases event with
  | refresh now =>
    rw [step_refresh hs]
    exact h.updateClusterInfo
  | message now msg =>
    rw [step_message hs, inspectorMessageReceived_eq]
    split
    · exact (h.storeMessage_size hsize).updateClusterInfo
    · exact h.storeMessage_size hsize

end Inspector.Watch

/-- **When a pass flags the clusters whose sizes mismatch.** In a run, every pass leaves what is not
outdated and flags exactly the clusters whose nodes disagree about the size, if and only if the
sizes that every pass finds can be compared with the one remembered. -/
theorem size_mismatches_flagged {limit : Nat} {h : List (Inspector.Watch × List InspectorEvent)}
    (hr : (Inspector.Watch.system limit).record.Run (fun _ event => event.HasSize) h) :
    (Inspector.Watch.system limit).record.Run (fun w event =>
        ∀ s ∈ w.1.passes limit event, Inspector.PassCorrect limit event.now s) h ↔
      (Inspector.Watch.system limit).record.Run (fun w event =>
        ∀ s ∈ w.1.passes limit event, Inspector.PassComparable limit event.now s) h := by
  have hsized : ∀ w ∈ h, w.1.inspector.Each fun _ _ node => 0 < node.size := by
    refine hr.forall_mem (P := fun w => w.1.inspector.Each fun _ _ node => 0 < node.size) ?_ ?_
    · intro name cluster hc
      simp [Lib.System.record, Inspector.Watch.system] at hc
    · exact fun w event w' hw hsize hs =>
        Inspector.Watch.step_sized hw hsize (Lib.System.record_step.1 hs).1
  exact hr.record_iff fun w hw event hsize => forall₂_congr fun s hs =>
    Inspector.passCorrect_iff (Inspector.Watch.passes_sized (hsized w hw) hsize hs)

/-- Two nodes report the sizes 2 and 3, and the pass in the second message flags their cluster. -/
theorem size_mismatches_flagged_second_report :
    ∃ h, (Inspector.Watch.system 1500000000).record.Run (fun _ event => event.HasSize) h ∧
      (∃ w ∈ h, w.1.inspector.clusters["hello"]?.any (·.sizeMismatched)) ∧
      (Inspector.Watch.system 1500000000).record.Run (fun w event =>
        ∀ s ∈ w.1.passes 1500000000 event, Inspector.PassCorrect 1500000000 event.now s) h := by
  obtain ⟨h, hr, hc⟩ := Lib.System.exists_run
    (S := (Inspector.Watch.system 1500000000).record)
    (fun w event => event.HasSize ∧
      ∀ s ∈ w.1.passes 1500000000 event, Inspector.PassComparable 1500000000 event.now s)
    [.message 1 ⟨1, "hello", 2, 0, 2, 1, 0, 0⟩, .message 1 ⟨1, "hello", 3, 1, 2, 1, 0, 0⟩]
    (fun h => h.any fun w => w.1.inspector.clusters["hello"]?.any (·.sizeMismatched))
    (by decide +kernel)
  have hsize := hr.mono fun _ _ hok => hok.1
  exact ⟨h, hsize, List.any_eq_true.1 hc,
    (size_mismatches_flagged hsize).2 (hr.mono fun _ _ hok => hok.2)⟩

/-- Two nodes report the sizes 2 and 3. The pass that follows flags their cluster and remembers 3,
and the next one finds no mismatch. -/
theorem size_mismatch_forgotten : ∃ h, (Inspector.Watch.system 1500000000).Run
      (fun _ event => event.HasSize) h ∧
    ∃ w ∈ h, ∃ s ∈ w.passes 1500000000 (.refresh 1),
      ¬ Inspector.PassCorrect 1500000000 1 s := by
  obtain ⟨h, hr, hc⟩ := Lib.System.exists_run
    (S := Inspector.Watch.system 1500000000) (fun _ event => event.HasSize)
    [.message 1 ⟨1, "hello", 2, 0, 2, 1, 0, 0⟩, .message 1 ⟨1, "hello", 3, 1, 2, 1, 0, 0⟩]
    (fun h => h.any fun w =>
      (Inspector.updateClusterInfo 1500000000 1 w.inspector).clusters["hello"]?.any fun cluster =>
        cluster.sizeMismatched = false && cluster.nodes[0]?.any (·.size = 2) &&
          cluster.nodes[1]?.any (·.size = 3))
    (by decide +kernel)
  simp only [List.any_eq_true, Option.any_eq_true, Bool.and_eq_true, decide_eq_true_eq] at hc
  obtain ⟨w, hw, cluster, hcluster, ⟨hflag, a, ha, hsa⟩, b, hb, hsb⟩ := hc
  refine ⟨h, hr, w, hw, w.inspector, rfl, fun hcorrect => ?_⟩
  have hdisagree : Inspector.Disagrees cluster := ⟨0, 1, a, b, ha, hb, by rw [hsa, hsb]; decide⟩
  rw [(hcorrect.mismatched "hello" cluster hcluster).2 hdisagree] at hflag
  cases hflag

end Foros
