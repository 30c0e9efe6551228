import Foros.Cluster.Proof.Repair
import Foros.Lib.Quorum
import Foros.Raft.Proof.Pending

/-!
# Commands can be committed

A leader whose peers are in step asks them to append the command it has been given, and their
answers, one after the other, make a majority (`Collecting.reach`). So from every reachable state
of a steady run a command can be acknowledged with one call: its entry is then at the end of the
leader's log, and the future the client holds is fulfilled (`command_can_commit`).
-/

namespace Foros

/-! ## The request for a new entry -/

/-- A log grows to the entry of a request at most. -/
theorem Logs.length_append_le {logs : List LogEntry} (hi : Indexed logs)
    (request : AppendEntriesRequest) :
    (append request logs).2.length ≤ max logs.length (request.leaderCommit + 1) := by
  have ho := append_outcome hi request
  generalize append request logs = r at ho ⊢
  generalize appendNotices request logs = es at ho
  cases ho with
  | ignored _ => exact Nat.le_max_left ..
  | rolledBack _ => exact Nat.le_trans (List.take_prefix ..).length_le (Nat.le_max_left ..)
  | confirmed _ _ => exact Nat.le_max_left ..
  | replaced _ _ _ =>
    rw [List.length_append, List.length_take, List.length_singleton]
    omega
  | pushed _ he =>
    rw [List.length_append, List.length_singleton]
    omega

/-- The first entry is accepted by every log. -/
theorem Logs.append_first {logs : List LogEntry} (hi : Indexed logs)
    {request : AppendEntriesRequest} (hne : request.entries ≠ []) (h0 : request.leaderCommit = 0) :
    (append request logs).1 = true := by
  have ho := append_outcome hi request
  generalize append request logs = r at ho ⊢
  generalize appendNotices request logs = es at ho
  cases ho with
  | ignored hno => exact absurd ⟨⟨hne, .inl h0⟩, by omega⟩ hno
  | rolledBack hroll => exact absurd h0 hroll.2.1
  | confirmed _ _ => rfl
  | replaced _ _ _ => rfl
  | pushed _ _ => rfl

namespace Core

variable {c : Core} {data : Bytes} {promise : Nat} {results : Nat → Option Bool}

/-- The commit of `data`, proposed by the leader `c`. -/
def commitOf (data : Bytes) (promise : Nat) (results : Nat → Option Bool) (c : Core) :
    PendingCommit :=
  ⟨c.proposal (some data), promise, results⟩

theorem commitCommand_alone (hl : c.state = .leader) (hsize : c.clusterSize ≤ 1) :
    c.commitCommand (some data) promise =
      { c with logs := c.logs ++ [c.proposal (some data)] } := by
  unfold commitCommand
  rw [if_neg (not_not.2 hl), if_pos hsize,
    Logs.push_accepted (l := c.proposal (some data)) rfl rfl]

theorem commitCommand_asks (hl : c.state = .leader) (hsize : 1 < c.clusterSize)
    (hp : c.pending = none) :
    c.commitCommand (some data) promise =
      { c with pending := some (c.commitOf data promise fun _ => none) } := by
  unfold commitCommand
  rw [if_neg (not_not.2 hl), if_neg (Nat.not_le.2 hsize), current_of_none hp]
  rfl

/-- A peer that is in step accepts the pending entry. -/
theorem append_pending (hok : c.Ok) (hp : c.pending = some (c.commitOf data promise results))
    (hdata : data ≠ []) {node : OtherNode} (hk : node.nextIndex = c.logs.length)
    {logs : List LogEntry} (hi : Logs.Indexed logs) (heq : c.logs ≠ [] → logs = c.logs) :
    (c.appendRequest node).leaderCommit = c.logs.length ∧
      (Logs.append (c.appendRequest node) logs).1 = true := by
  have hview : c.view = c.logs ++ [c.proposal (some data)] := by
    rw [view, current_of_eq hp rfl]
    rfl
  have hfrom := hok.fromView node
  obtain ⟨hcommit, hentries⟩ : (c.appendRequest node).leaderCommit = c.logs.length ∧
      (c.appendRequest node).entries = data := by
    obtain ⟨i, t, hr⟩ := c.appendRequest_eq node
    rw [hr, hk]
    unfold entryRequest
    rw [hview, List.getElem?_append_right (Nat.le_refl _), Nat.sub_self]
    exact ⟨rfl, rfl⟩
  have hne : (c.appendRequest node).entries ≠ [] := hentries ▸ hdata
  refine ⟨hcommit, ?_⟩
  by_cases hnil : c.logs = []
  · exact Logs.append_first hi hne (by rw [hcommit, hnil, List.length_nil])
  · have hlogs := heq hnil
    have hagree : Logs.Agree logs c.view := fun k e _ he _ _ => by
      rw [hview, ← hlogs, List.take_append_of_le_length (List.getElem?_eq_some_iff.1 he).1]
    rcases hfrom.accepted_or_rejected hne hi hagree with hacc | ⟨-, -, hno, -⟩
    · rw [hacc]
    · refine absurd ?_ hno
      rw [hcommit, hview, hlogs, List.take_left]

/-- One more positive answer. -/
theorem successCount_update {peers : List OtherNode} {v : Nat} (hfresh : results v = none)
    (hv : v ∈ peers.map (·.nodeId)) :
    Node.successCount peers results true + 1 ≤
      Node.successCount peers (Function.update results v (some true)) true := by
  rw [successCount_eq, successCount_eq]
  have hjoin := Lib.countP_add_one_le (p := fun id => decide (results id = some true))
    (q := fun id => decide (Function.update results v (some true) id = some true)) hv
    (fun w _ hw => by
      by_cases hwv : w = v
      · rw [hwv, Function.update_self]
        rfl
      · rwa [Function.update_of_ne hwv])
    (by rw [hfresh]; rfl) (by rw [Function.update_self]; rfl)
  omega

/-- A positive answer to the pending commit is counted, or completes it. -/
theorem answered (hp : c.pending = some (c.commitOf data promise results)) {v : Nat}
    {request : AppendEntriesRequest} (hcommit : request.leaderCommit = c.logs.length) :
    let answered := c.appendEntriesResponse v request ⟨c.term, true⟩
    let counted := Function.update results v (some true)
    (c.majority ≤ Node.successCount c.peers counted true →
      answered.logs = c.logs ++ [c.proposal (some data)] ∧ answered.term = c.term ∧
      ((c.updatePeer v request ⟨c.term, true⟩).observe c.term).countNotices v
          request.leaderCommit c.term true =
        completeNotices promise (c.proposal (some data))) ∧
    (Node.successCount c.peers counted true < c.majority →
      answered = { c.updatePeer v request ⟨c.term, true⟩ with
        pending := some (c.commitOf data promise counted) }) := by
  have hobs : (c.updatePeer v request ⟨c.term, true⟩).observe c.term =
      c.updatePeer v request ⟨c.term, true⟩ :=
    observe_of_le (c := c.updatePeer v request ⟨c.term, true⟩) (Nat.le_refl _)
  have hmatch : (c.updatePeer v request ⟨c.term, true⟩).matching request.leaderCommit c.term =
      some (c.commitOf data promise results) :=
    matching_eq_some.2 ⟨hp, hcommit.symm, rfl⟩
  have hcompletes : (c.updatePeer v request ⟨c.term, true⟩).Completes v true
      (c.commitOf data promise results) ↔
      c.majority ≤ Node.successCount c.peers (Function.update results v (some true)) true := by
    unfold Completes updatePeer
    rw [successCount_eq, successCount_eq, map_updateIndex_nodeId]
    rfl
  simp only [appendEntriesResponse, hobs, count, countNotices, hmatch, hcompletes]
  refine ⟨fun hle => ?_, fun hlt => ?_⟩
  · rw [if_pos hle, if_pos hle]
    refine ⟨?_, rfl, rfl⟩
    unfold complete
    exact congrArg Prod.snd (Logs.push_accepted (l := c.proposal (some data)) rfl rfl)
  · rw [if_neg (Nat.not_le.2 hlt)]
    rfl

end Core

namespace Cluster

variable {cfg : Config} {s s' : Cluster} {b v promise : Nat} {L : List LogEntry} {data : Bytes}

/-! ## Collecting answers -/

/-- The leader `b` of the term `T`, whose log is `L`, has asked the peers `vs` to append the command
`data`. They will accept it, and their answers make a majority. -/
structure Collecting (cfg : Config) (b T promise : Nat) (L : List LogEntry) (data : Bytes)
    (vs : List Nat) (results : Nat → Option Bool) (s : Cluster) : Prop where
  live : Live cfg s
  logs : (s.core b).logs = L
  term : (s.core b).term = T
  pending : (s.core b).pending = some ((s.core b).commitOf data promise results)
  fresh : ∀ v ∈ vs, results v = none
  few : Node.successCount (s.core b).peers results true < (s.core b).majority
  enough : (s.core b).majority ≤ Node.successCount (s.core b).peers results true + vs.length
  nodup : vs.Nodup
  peers : vs ⊆ cfg.peers b
  asked : ∀ v ∈ vs, ∃ request, ⟨b, v, s.boots b, .appendEntries request⟩ ∈ s.net ∧
    request.leaderId = b ∧ request.leaderCommit = L.length ∧
    (Logs.append request (s.core v).logs).1 = true ∧ (s.core v).term = T

/-- The leader `b` has committed `data` after the log `L`, and fulfilled its promise. -/
structure Committed (b promise : Nat) (L : List LogEntry) (data : Bytes) (s : Cluster) : Prop where
  logs : (s.core b).logs = L ++ [⟨L.length, (s.core b).term, some data⟩]
  told : .resolved promise ⟨L.length, some data, true⟩ ∈ (s.nodes b).trace

theorem Committed.of_visible
    (hlogs : (s.core b).logs = L ++ [⟨L.length, (s.core b).term, some data⟩])
    (hvis : (s.nodes b).visible =
      Core.completeNotices promise ⟨L.length, (s.core b).term, some data⟩) :
    Committed b promise L data s := by
  refine ⟨hlogs, ?_⟩
  have hmem : Effect.resolved promise ⟨L.length, some data, true⟩ ∈ (s.nodes b).visible := by
    rw [hvis]
    exact .tail _ (.head _)
  exact (List.mem_filter.1 hmem).1

/-- **The answers of a majority complete the commit.** -/
theorem Collecting.reach {T : Nat} (hb : b ∈ cfg.ids) (hL : L.length < 2 ^ 64 - 1) :
    ∀ {vs : List Nat} {results : Nat → Option Bool} {s : Cluster},
    Collecting cfg b T promise L data vs results s →
      (Cluster.system cfg).Reach (fun _ a => ∃ k, a = .deliver k) (Committed b promise L data) s
  | [], _, _, h => by
    have h1 := h.few
    have h2 := h.enough
    simp only [List.length_nil] at h2
    omega
  | v :: vs, results, s, h => by
    obtain ⟨hvi, hvb⟩ := Config.mem_peers.1 (h.peers (.head _))
    obtain ⟨hvvs, hnodup⟩ := List.nodup_cons.1 h.nodup
    obtain ⟨request, hreq, hleader, hcommit, hacc, hterm⟩ := h.asked v (.head _)
    have hvalid : (s.core v).isValid request.leaderId = true :=
      hleader ▸ (h.live.ok.nodes v hvi).isValid hb (Ne.symm hvb)
    have happ := Core.appendEntries_of_valid hvalid
    -- the peer accepts
    obtain ⟨s₁, ⟨k₁, hs₁⟩, -, ho₁, hboots₁, hnet₁, hreply⟩ := exists_handled h.live hvi (by
      have hle := Logs.length_append_le (h.live.ok.nodes v hvi).core.logs.ordered.indexed request
      have hlen : (s.core v).logs.length < 2 ^ 64 := (h.live.ok.nodes v hvi).ok.store.length_lt
      rw [happ]
      refine Nat.lt_of_le_of_lt hle ?_
      change max (s.core v).logs.length _ < _
      omega) hreq
    rw [happ, hacc, hterm] at hreply
    have hlive₁ := h.live.step hs₁
    have hb₁ : s₁.core b = s.core b := core_eq (ho₁ b (Ne.symm hvb))
    -- its answer is counted
    have hpending : (s₁.core b).pending = some ((s₁.core b).commitOf data promise results) := by
      rw [hb₁]
      exact h.pending
    have hindex : request.leaderCommit = (s₁.core b).logs.length := by
      rw [hb₁, h.logs]
      exact hcommit
    obtain ⟨hdone, hmore⟩ := Core.answered (v := v) hpending hindex
    have hids : ((s₁.core b).peers.map (·.nodeId)) = cfg.peers b := (hlive₁.ok.nodes b hb).peers
    have hlen : (s₁.core b).logs.length + 1 < 2 ^ 64 := by
      rw [hb₁, h.logs]
      omega
    rcases Nat.lt_or_ge (Node.successCount (s₁.core b).peers (Function.update results v (some true))
      true) (s₁.core b).majority with hlt | hge
    · have hcore := hmore hlt
      rw [hb₁, h.term] at hcore
      obtain ⟨s₂, ⟨k₂, hs₂⟩, hb₂, ho₂, hboots₂, hnet₂, -⟩ := exists_answered hlive₁ hb (by
        rw [hb₁, hcore]
        exact (h.live.ok.nodes b hb).ok.store.length_lt) (hboots₁ ▸ hreply)
      rw [hb₁, hcore] at hb₂
      have hcount : ∀ counted, Node.successCount (s₂.core b).peers counted true =
          Node.successCount (s.core b).peers counted true := fun counted => by
        rw [hb₂, Core.successCount_eq, Core.successCount_eq]
        exact congrArg (fun ids => 1 + List.countP _ ids) (Core.map_updateIndex_nodeId ..)
      have hmaj : (s₂.core b).majority = (s.core b).majority := by rw [hb₂]; rfl
      have hnext : Collecting cfg b T promise L data vs (Function.update results v (some true))
          s₂ :=
        { live := hlive₁.step hs₂
          logs := by rw [hb₂]; exact h.logs
          term := by rw [hb₂]; exact h.term
          pending := by rw [hb₂]; rfl
          fresh := fun w hw => by
            have hwv : w ≠ v := fun he => hvvs (he ▸ hw)
            rw [Function.update_of_ne hwv]
            exact h.fresh w (.tail _ hw)
          few := by rw [hcount, hmaj, ← hb₁]; exact hlt
          enough := by
            have henough := h.enough
            have hjoin := Core.successCount_update (h.fresh v (.head _))
              (hb₁ ▸ hids ▸ h.peers (.head _))
            rw [hcount, hmaj]
            simp only [List.length_cons] at henough
            omega
          nodup := hnodup
          peers := fun w hw => h.peers (.tail _ hw)
          asked := fun w hw => by
            obtain ⟨-, hwb⟩ := Config.mem_peers.1 (h.peers (.tail _ hw))
            have hwv : w ≠ v := fun he => hvvs (he ▸ hw)
            obtain ⟨request, hreq, hrest⟩ := h.asked w (.tail _ hw)
            rw [core_eq ((ho₂ w hwb).trans (ho₁ w hwv)), hboots₂, hboots₁]
            exact ⟨request, hnet₂ _ (hnet₁ _ hreq hwv) hwb, hrest⟩ }
      exact .next ⟨k₁, rfl⟩ hs₁ (.next ⟨k₂, rfl⟩ hs₂ (Collecting.reach hb hL hnext))
    · obtain ⟨hlogs, hterm', hnotices⟩ := hdone hge
      have hT : (s₁.core b).term = T := by rw [hb₁, h.term]
      rw [hT] at hlogs hterm' hnotices
      obtain ⟨s₂, ⟨k₂, hs₂⟩, hb₂, -, -, -, hvis⟩ := exists_answered hlive₁ hb (by
        rw [hlogs, List.length_append, List.length_singleton]
        exact hlen) (hboots₁ ▸ hreply)
      refine .next ⟨k₁, rfl⟩ hs₁ (.step ⟨k₂, rfl⟩ hs₂ (.of_visible ?_ ?_))
      · rw [hb₂, hlogs, hterm', Core.proposal, hb₁, h.logs, h.term]
      · rw [hvis, hnotices, hb₂, hterm', Core.proposal, hb₁, h.logs, h.term]

/-! ## Proposing -/

/-- A leader is asked to commit a command: it has done so, or waits for its peers. -/
theorem Leading.propose (h : Leading cfg b L s) (hb : b ∈ cfg.ids) (hL : L.length < 2 ^ 64 - 1)
    (data : Bytes) :
    ∃ s', step cfg s (.commitCommand b data) = some s' ∧ (∀ j, j ≠ b → s'.nodes j = s.nodes j) ∧
      (Committed b (s.nodes b).promises L data s' ∨ 2 ≤ cfg.ids.length ∧
        s'.core b = { s.core b with
          pending := some
            ((s.core b).commitOf data (s.nodes b).promises fun _ => none) }) := by
  have hnode := h.live.ok.nodes b hb
  let promise := (s.nodes b).promises
  obtain ⟨hcore, hvis, -⟩ := Node.commitCommand_spec (some data) { s.nodes b with trace := [] }
  change ((s.nodes b).run .plain (.commitCommand (some data))).core =
    (s.core b).commitCommand (some data) promise at hcore
  change ((s.nodes b).run .plain (.commitCommand (some data))).visible =
    (s.core b).commitNotices (some data) promise at hvis
  have hsize : (s.core b).clusterSize = cfg.ids.length := hnode.clusterSize
  have hcases : (cfg.ids.length ≤ 1 ∧
      (s.core b).commitCommand (some data) promise = { s.core b with
        logs := (s.core b).logs ++ [(s.core b).proposal (some data)] }) ∨
      2 ≤ cfg.ids.length ∧ (s.core b).commitCommand (some data) promise = { s.core b with
        pending := some ((s.core b).commitOf data promise fun _ => none) } := by
    rcases Nat.lt_or_ge 1 cfg.ids.length with hlt | hge
    · exact .inr ⟨hlt, Core.commitCommand_asks h.leader (hsize ▸ hlt) h.pending⟩
    · exact .inl ⟨hge, Core.commitCommand_alone h.leader (hsize ▸ hge)⟩
  obtain ⟨s', hcall, hcalled⟩ := exists_callback s b (.commitCommand (some data)) none s.net (by
    rw [show ((s.nodes b).run .plain _).store.logs = _ from congrArg Core.logs hcore]
    have hlen : (s.core b).logs.length = L.length := congrArg List.length h.logs
    rcases hcases with ⟨-, he⟩ | ⟨-, he⟩ <;> rw [he]
    · rw [List.length_append, List.length_singleton]
      omega
    · change (s.core b).logs.length < _
      omega)
  have hb' : s'.core b = (s.core b).commitCommand (some data) promise := by
    unfold core
    rw [hcalled.node]
    exact hcore
  refine ⟨s', by simp [step, stepIn, hb, hcall], hcalled.others, ?_⟩
  rcases hcases with ⟨hone, he⟩ | ⟨htwo, he⟩
  · refine .inl (.of_visible ?_ ?_)
    · rw [hb', he, Core.proposal, h.logs]
    · rw [hcalled.node, hvis, hb', he, Core.commitNotices, if_pos ⟨h.leader, hsize ▸ hone⟩,
        Core.proposal, h.logs]
  · exact .inr ⟨htwo, hb'.trans he⟩

/-- **A leader whose peers are in step can commit a command.** -/
theorem Leading.commits (h : Leading cfg b L s) (hb : b ∈ cfg.ids)
    (hsynced : ∀ j ∈ cfg.peers b, Synced b j L s) (hL : L.length < 2 ^ 64 - 1) (hdata : data ≠ []) :
    ∃ s', step cfg s (.commitCommand b data) = some s' ∧
      (Cluster.system cfg).Reach (fun _ a => a = .broadcastTimer b ∨ ∃ k, a = .deliver k)
        (Committed b (s.nodes b).promises L data) s' := by
  obtain ⟨s₁, hs₁, ho₁, hdone | ⟨htwo, hb₁⟩⟩ := h.propose hb hL data
  · exact ⟨s₁, hs₁, .here hdone⟩
  let promise := (s.nodes b).promises
  have hlive₁ := h.live.step hs₁
  have hnode := hlive₁.ok.nodes b hb
  have hok₁ : (s₁.core b).Ok := hnode.core
  have hlogs₁ : (s₁.core b).logs = L := by rw [hb₁]; exact h.logs
  have hp₁ : (s₁.core b).pending = some ((s₁.core b).commitOf data promise fun _ => none) := by
    rw [hb₁]
    rfl
  obtain ⟨s₂, hs₂, hb₂, ho₂, hboots₂, hnet₂⟩ := exists_broadcast hlive₁ hb
    (by rw [hb₁]; exact h.leader) ((Core.current_of_eq hp₁ rfl).trans hp₁.symm)
  have hothers : ∀ j, j ≠ b → s₂.core j = s.core j := fun j hj =>
    core_eq ((ho₂ j hj).trans (ho₁ j hj))
  have hmaj : (s₁.core b).majority = cfg.ids.length / 2 + 1 := hnode.majority
  have hcount : Node.successCount (s₁.core b).peers (fun _ => none) true = 1 := by
    rw [Core.successCount_eq, List.countP_eq_zero.2 fun _ _ => by simp]
  have hlen : (cfg.peers b).length + 1 = cfg.ids.length :=
    (Config.perm_peers hb).length_eq
  have hcollect :
      Collecting cfg b (s.core b).term promise L data (cfg.peers b) (fun _ => none) s₂ :=
    { live := hlive₁.step hs₂
      logs := by rw [hb₂, hb₁]; exact h.logs
      term := by rw [hb₂, hb₁]
      pending := by rw [hb₂]; exact hp₁
      fresh := fun _ _ => rfl
      few := by rw [hb₂, hcount, hmaj]; omega
      enough := by rw [hb₂, hcount, hmaj]; omega
      nodup := cfg.nodup_peers b
      peers := List.Subset.refl _
      asked := fun v hv => by
        obtain ⟨hvi, hvb⟩ := Config.mem_peers.1 hv
        have hv₂ := hothers v hvb
        have hpeers : (s₁.core b).peers.map (·.nodeId) = cfg.peers b := hnode.peers
        obtain ⟨node, hfind⟩ : ∃ node, (s₁.core b).peers.find? (·.nodeId = v) = some node := by
          rw [← hpeers] at hv
          obtain ⟨node, hn, he⟩ := List.mem_map.1 hv
          exact Option.isSome_iff_exists.1 (List.find?_isSome.2 ⟨node, hn, by simpa using he⟩)
        have hid : node.nodeId = v := by simpa using List.find?_some hfind
        have hnext : node.nextIndex = (s₁.core b).logs.length := by
          have hc := (hsynced v hv).cursor
          rw [cursor, show (s.core b).peers = (s₁.core b).peers by rw [hb₁], hfind] at hc
          rw [hlogs₁]
          exact hc
        have hindexed : Logs.Indexed (s.core v).logs :=
          (h.live.ok.nodes v hvi).core.logs.ordered.indexed
        obtain ⟨hcommit, hacc⟩ := Core.append_pending hok₁ hp₁ hdata hnext hindexed
          (by rw [hlogs₁]; exact (hsynced v hv).logs)
        refine ⟨_, hid ▸ hboots₂ ▸ hnet₂ node (List.mem_of_find?_eq_some hfind), ?_, ?_, ?_, ?_⟩
        · rw [Core.appendRequest_leaderId]
          exact hnode.nodeId
        · rw [hcommit, hlogs₁]
        · rw [hv₂]
          exact hacc
        · rw [hv₂]
          exact (hsynced v hv).term }
  refine ⟨s₁, hs₁, .next (.inl rfl) hs₂ ?_⟩
  exact (hcollect.reach hb hL).allow fun _ _ ha => .inr ha

end Cluster

/-- **A command can be committed.** From every reachable state of a steady run, an inactive node
whose log ends no earlier than those of a majority can become active by its own timers and
deliveries; `commit_command` can then be called once on it, with any non-empty command, and by its
broadcast timer and deliveries the command's entry comes to follow the entries that were there, and
the promise of that call is fulfilled. -/
theorem command_can_commit {cfg : Config} {s : Cluster} {h : List Cluster}
    (hr : ClusterRun cfg (Cluster.Avoids Node.Deposed) (s :: h))
    (hterm : ∀ t ∈ s :: h, ∀ i ∈ cfg.ids, (t.nodes i).store.currentTerm < 2 ^ 64 - 1)
    {b : Nat} (hb : b ∈ cfg.ids) (hinactive : (s.nodes b).isActivated = false)
    (hmaj : cfg.ids.length / 2 + 1 ≤ cfg.ids.countP fun v =>
      (s.nodes v).store.lastLog.all fun log =>
        log.id ≤ ((s.nodes b).store.lastLog.map (·.id)).getD 0)
    (hcmd : ∀ e ∈ (s.nodes b).store.logs, ∃ data, e.command = some data ∧ data ≠ [])
    (hlen : (s.nodes b).store.logs.length < 2 ^ 64 - 1) {data : Bytes} (hdata : data ≠ []) :
    (Cluster.system cfg).Reach
      (fun _ a => a = .electionTimer b ∨ a = .broadcastTimer b ∨ ∃ k, a = .deliver k)
      (fun t => (t.nodes b).isActivated = true ∧
        ∃ t', Cluster.step cfg t (.commitCommand b data) = some t' ∧
        (Cluster.system cfg).Reach (fun _ a => a = .broadcastTimer b ∨ ∃ k, a = .deliver k)
          (fun u => (u.nodes b).store.logs = (s.nodes b).store.logs ++
              [⟨(s.nodes b).store.logs.length, (u.nodes b).store.currentTerm, some data⟩] ∧
            .resolved (t.nodes b).promises ⟨(s.nodes b).store.logs.length, some data, true⟩ ∈
              (u.nodes b).trace) t') s := by
  have hsteady : ClusterRun cfg Cluster.Steady (s :: h) :=
    (Cluster.avoids_wraps hr hterm).mono fun _ _ hok => ⟨hok.2, hok.1⟩
  have hlead := Cluster.reach_synced hsteady hb hinactive (hterm s (.head _)) hmaj hcmd
  refine hlead.mono fun t ⟨ht, hsynced⟩ => ⟨?_, ?_⟩
  · exact (ht.live.ok.nodes b hb).aligned.isActivated.2 ht.leader
  · obtain ⟨t', hcall, hreach⟩ := ht.commits hb hsynced hlen hdata
    exact ⟨t', hcall, hreach.mono fun u hu => ⟨hu.logs, hu.told⟩⟩

/-- Three nodes: node 0 led term 1 and has an entry, node 2 leads term 2. Node 0 can become active
again and commit a command after its entry. -/
theorem command_can_commit_deposed_leader :
    ∃ s h, ClusterRun (.range 3 (by decide)) (Cluster.Avoids Node.Deposed) (s :: h) ∧
      (s.nodes 0).store.logs = [⟨0, 1, some [1]⟩] ∧ (s.nodes 2).isActivated = true ∧
      (Cluster.system (.range 3 (by decide))).Reach
        (fun _ a => a = .electionTimer 0 ∨ a = .broadcastTimer 0 ∨ ∃ k, a = .deliver k)
        (fun t => (t.nodes 0).isActivated = true ∧
          ∃ t', Cluster.step (.range 3 (by decide)) t (.commitCommand 0 [7]) = some t' ∧
          (Cluster.system (.range 3 (by decide))).Reach
            (fun _ a => a = .broadcastTimer 0 ∨ ∃ k, a = .deliver k)
            (fun u => (u.nodes 0).store.logs = (s.nodes 0).store.logs ++
                [⟨(s.nodes 0).store.logs.length, (u.nodes 0).store.currentTerm, some [7]⟩] ∧
              .resolved (t.nodes 0).promises ⟨(s.nodes 0).store.logs.length, some [7], true⟩ ∈
                (u.nodes 0).trace) t') s := by
  obtain ⟨h, hr, hc⟩ := Lib.System.exists_run (S := Cluster.system (.range 3 (by decide)))
    (Cluster.Avoids Node.Deposed)
    [.electionTimer 0, .deliver 0, .lose 0, .deliver 0, .commitCommand 0 [1], .broadcastTimer 0,
      .deliver 0, .lose 0, .deliver 0, .electionTimer 2, .lose 0, .deliver 0, .deliver 0,
      .electionTimer 2, .lose 0, .deliver 0, .deliver 0, .broadcastTimer 2, .deliver 0]
    (fun
      | s :: h => (s :: h).all (fun t => [0, 1, 2].all fun i =>
            (t.nodes i).store.currentTerm < 2 ^ 64 - 1) &&
          decide ((s.nodes 0).isActivated = false ∧ (s.nodes 2).isActivated = true ∧
            (s.nodes 0).store.logs = [⟨0, 1, some [1]⟩] ∧
            2 ≤ [0, 1, 2].countP fun v => (s.nodes v).store.lastLog.all fun log =>
              log.id ≤ ((s.nodes 0).store.lastLog.map (·.id)).getD 0)
      | [] => false) (by decide +kernel)
  split at hc
  · rename_i s h
    simp only [Bool.and_eq_true, List.all_eq_true, decide_eq_true_eq] at hc
    obtain ⟨hterm, hinactive, hactive, h0, hmaj⟩ := hc
    refine ⟨s, h, hr, h0, hactive, command_can_commit hr hterm (by decide) hinactive hmaj ?_ ?_
      (by decide)⟩
    · intro e he
      rw [h0, List.mem_singleton] at he
      exact ⟨[1], by rw [he], by decide⟩
    · rw [h0]
      decide
  · cases hc

end Foros
