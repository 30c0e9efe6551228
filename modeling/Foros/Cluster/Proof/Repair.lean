import Foros.Cluster.Proof.Electable
import Foros.Cluster.Proof.Matching
import Foros.Raft.Proof.Converge

/-!
# Logs can be repaired

A node that can be elected can make every other log its own: a broadcast, one of its requests and
the answer to it are a round with a peer (`Leading.exchange`), the rounds bring the peer's log
nearer to the leader's until it is the same (`Leading.sync`), and the peers come one after the other
(`Leading.reach`). So from every reachable state of a steady run, whatever the logs of the others
hold, nothing but timers and deliveries leads to a state in which all logs agree
(`logs_repairable`).
-/

namespace Foros

/-! ## Steps -/

/-- The broadcast timer of a leader. -/
theorem Node.run_broadcast {n : Node} (hid : n.LastId) (h : n.Timed) (hs : n.state = .leader) :
    (run .plain .broadcastTimer n).core = { n.core with pending := n.core.current } ∧
      (run .plain .broadcastTimer n).visible = n.core.appendRequests := by
  have htimer : n.broadcastTimer = true := by
    rw [h.broadcast]
    simpa using hs
  have he : run .plain .broadcastTimer n = broadcast { n with trace := [] } := by
    simp [run, dispatch, htimer, handle, handleWith, hs, transitionMap, onEvent]
  have hspec := broadcast_spec (n := { n with trace := [] }) hid
  rw [he]
  exact ⟨hspec.core, hspec.visible⟩

/-- A heartbeat tells the leader's term. -/
theorem Serves.appendRequest_term {id k : Nat} {a b : Core} (h : Serves id k a b) {node : OtherNode}
    (hge : a.logs.length ≤ node.nextIndex) : (a.appendRequest node).term = a.term := by
  obtain ⟨i, t, hr⟩ := a.appendRequest_eq node
  rw [hr]
  unfold Core.entryRequest
  rw [h.view, List.getElem?_eq_none hge]

theorem Core.discover_term (c : Core) (request : AppendEntriesRequest) :
    (c.discover request).term = max c.term request.term := by
  unfold discover
  split
  · rename_i hlt
    exact (Nat.max_eq_left (Nat.le_of_lt hlt)).symm
  · rw [down_term, observe_term]

/-- An answer moves the indices of one peer. -/
theorem Core.find?_updatePeer (c : Core) {id j : Nat} (hj : j ≠ id)
    (request : AppendEntriesRequest) (response : AppendEntriesResponse) :
    (c.updatePeer id request response).peers.find? (·.nodeId = j) =
      c.peers.find? (·.nodeId = j) := by
  unfold updatePeer
  simp only
  induction c.peers with
  | nil => rfl
  | cons node peers ih =>
    rw [List.map_cons, List.find?_cons, List.find?_cons, ih]
    by_cases hid : node.nodeId = id
    · have hne : (Node.updateIndex request response node).nodeId ≠ j := by
        unfold Node.updateIndex
        split <;> [skip; split] <;> exact fun he => hj (he.symm.trans hid)
      rw [if_pos hid, decide_eq_false hne, decide_eq_false (fun he => hj (he.symm.trans hid))]
    · rw [if_neg hid]

/-- A peer's log does not grow beyond the leader's. -/
theorem Serves.length_le {id k : Nat} {a b : Core} (h : Serves id k a b) (node : OtherNode) :
    (b.appendEntries (a.appendRequest node)).2.logs.length ≤
      max a.logs.length b.logs.length := by
  rw [h.appendEntries_eq (a.appendRequest_leaderId node)]
  change (Logs.append (a.appendRequest node) b.logs).2.length ≤ _
  obtain ⟨hentry, hheart, -⟩ := h.appendRequest_entries node
  rcases Nat.lt_or_ge node.nextIndex a.logs.length with hlt | hge
  · obtain ⟨hne, -⟩ := hentry hlt
    rcases (h.fromView node).accepted_or_rejected hne h.peer_indexed h.agree with hacc | hrej
    · rw [hacc]
      exact Nat.le_trans (List.take_prefix ..).length_le (Nat.le_max_left ..)
    · exact Nat.le_trans hrej.2.2.2.length_le (Nat.le_max_right ..)
  · have hnil := hheart hge
    rw [show Logs.append (a.appendRequest node) b.logs = (false, b.logs) by
      simp [Logs.append, hnil]]
    exact Nat.le_max_right ..

namespace Cluster

variable {cfg : Config} {s s' : Cluster} {b v : Nat} {L : List LogEntry}

/-- A leader broadcasts: nothing but the network changes, and there is a request for each peer. -/
theorem exists_broadcast (hlive : Live cfg s) (hb : b ∈ cfg.ids)
    (hl : (s.core b).state = .leader) (hcur : (s.core b).current = (s.core b).pending) :
    ∃ s', step cfg s (.broadcastTimer b) = some s' ∧ s'.core b = s.core b ∧
      (∀ j, j ≠ b → s'.nodes j = s.nodes j) ∧ s'.boots = s.boots ∧
      ∀ node ∈ (s.core b).peers, ⟨b, node.nodeId, s.boots b,
        .appendEntries ((s.core b).appendRequest node)⟩ ∈ s'.net := by
  have hnode := hlive.ok.nodes b hb
  obtain ⟨hcore, hvis⟩ := Node.run_broadcast hnode.ok.lastId (hlive.timed b hb) hl
  have hcore : ((s.nodes b).run .plain .broadcastTimer).core = s.core b := by
    rw [hcore]
    change { s.core b with pending := (s.core b).current } = s.core b
    rw [hcur]
  obtain ⟨s', hcall, hcalled⟩ := exists_callback s b .broadcastTimer none s.net (by
    rw [show ((s.nodes b).run .plain .broadcastTimer).store.logs = (s.core b).logs from
      congrArg Core.logs hcore]
    exact hnode.ok.store.length_lt)
  refine ⟨s', by simp [step, stepIn, hb, hcall], ?_, hcalled.others, hcalled.boots,
    fun node hn => ?_⟩
  · unfold core
    rw [hcalled.node]
    exact hcore
  · rw [hcalled.net, hcalled.node, hvis]
    exact List.mem_append_right _ (List.mem_filterMap.2 ⟨_, List.mem_map.2 ⟨node, hn, rfl⟩, rfl⟩)

/-- A peer handles a request of the leader. -/
theorem exists_handled {request : AppendEntriesRequest} (hlive : Live cfg s) (hv : v ∈ cfg.ids)
    (hlen : ((s.core v).appendEntries request).2.logs.length < 2 ^ 64)
    (hp : ⟨b, v, s.boots b, .appendEntries request⟩ ∈ s.net) :
    ∃ s', (∃ k, step cfg s (.deliver k) = some s') ∧
      s'.core v = ((s.core v).appendEntries request).2 ∧
      (∀ j, j ≠ v → s'.nodes j = s.nodes j) ∧ s'.boots = s.boots ∧
      (∀ p ∈ s.net, p.dst ≠ v → p ∈ s'.net) ∧
      ⟨v, b, s.boots b, .appendEntriesResponse request ((s.core v).appendEntries request).1⟩ ∈
        s'.net := by
  have hnode := hlive.ok.nodes v hv
  obtain ⟨k, hk⟩ := List.mem_iff_getElem?.1 hp
  obtain ⟨c, es, hstep, hcore, hvis, -⟩ :=
    Node.run_step hnode.ok.lastId (.appendEntries request)
  obtain ⟨rfl, rfl⟩ : c = ((s.core v).appendEntries request).2 ∧
      es = (s.core v).appendNotices request ++
        [.replyAppendEntries request ((s.core v).appendEntries request).1] := by
    cases hstep
    exact ⟨rfl, rfl⟩
  obtain ⟨s', hcall, hcalled⟩ := exists_callback s v (.appendEntries request)
    (some ⟨b, v, s.boots b, .appendEntries request⟩) (s.net.eraseIdx k) (by
      rw [show ((s.nodes v).run .plain _).store.logs = _ from congrArg Core.logs hcore]
      exact hlen)
  refine ⟨s', ⟨k, (step_deliver hk rfl).trans hcall⟩, ?_, hcalled.others, hcalled.boots,
    fun p hp hne => ?_, ?_⟩
  · unfold core
    rw [hcalled.node]
    exact hcore
  · rw [hcalled.net]
    exact List.mem_append_left _ (mem_eraseIdx_of_ne hp hk fun he => hne (congrArg Packet.dst he))
  · rw [hcalled.net, hcalled.node, hvis, List.filterMap_append]
    exact List.mem_append_right _ (List.mem_append_right _ (.head _))

/-- The leader handles the answer. -/
theorem exists_answered {request : AppendEntriesRequest} {response : AppendEntriesResponse}
    (hlive : Live cfg s) (hb : b ∈ cfg.ids)
    (hlen : ((s.core b).appendEntriesResponse v request response).logs.length < 2 ^ 64)
    (hp : ⟨v, b, s.boots b, .appendEntriesResponse request response⟩ ∈ s.net) :
    ∃ s', (∃ k, step cfg s (.deliver k) = some s') ∧
      s'.core b = (s.core b).appendEntriesResponse v request response ∧
      (∀ j, j ≠ b → s'.nodes j = s.nodes j) ∧ s'.boots = s.boots ∧
      (∀ p ∈ s.net, p.dst ≠ b → p ∈ s'.net) ∧
      (s'.nodes b).visible = (((s.core b).updatePeer v request response).observe
        response.term).countNotices v request.leaderCommit response.term response.success := by
  have hnode := hlive.ok.nodes b hb
  obtain ⟨k, hk⟩ := List.mem_iff_getElem?.1 hp
  obtain ⟨c, es, hstep, hcore, hvis, -⟩ :=
    Node.run_step hnode.ok.lastId (.appendEntriesResponse v request response)
  obtain ⟨rfl, rfl⟩ : c = (s.core b).appendEntriesResponse v request response ∧
      es = (((s.core b).updatePeer v request response).observe response.term).countNotices v
        request.leaderCommit response.term response.success := by
    cases hstep
    exact ⟨rfl, rfl⟩
  obtain ⟨s', hcall, hcalled⟩ := exists_callback s b (.appendEntriesResponse v request response)
    (some ⟨v, b, s.boots b, .appendEntriesResponse request response⟩) (s.net.eraseIdx k) (by
      rw [show ((s.nodes b).run .plain _).store.logs = _ from congrArg Core.logs hcore]
      exact hlen)
  refine ⟨s', ⟨k, (step_deliver hk (by simp [orphan])).trans hcall⟩, ?_, hcalled.others,
    hcalled.boots, fun p hp hne => ?_, ?_⟩
  · unfold core
    rw [hcalled.node]
    exact hcore
  · rw [hcalled.net]
    exact List.mem_append_left _ (mem_eraseIdx_of_ne hp hk fun he => hne (congrArg Packet.dst he))
  · rw [hcalled.node, hvis]

/-! ## One peer -/

/-- The steps of a leader `b` that serves its peers. -/
def Serving (b : Nat) (_ : Cluster) (a : Action) : Prop :=
  a = .broadcastTimer b ∨ ∃ k, a = .deliver k

/-- Node `b` leads in the highest term with the log `L`, and nothing is pending. -/
structure Leading (cfg : Config) (b : Nat) (L : List LogEntry) (s : Cluster) : Prop where
  live : Live cfg s
  leader : (s.core b).state = .leader
  pending : (s.core b).pending = none
  logs : (s.core b).logs = L
  below : ∀ i ∈ cfg.ids, (s.core i).term ≤ (s.core b).term
  agree : ∀ i ∈ cfg.ids, Logs.Agree (s.core i).logs L

/-- Where the leader `b` is with the log of the peer `v`. -/
def cursor (b v : Nat) (s : Cluster) : Nat :=
  (((s.core b).peers.find? (·.nodeId = v)).map (·.nextIndex)).getD 0

theorem cursor_eq {k : Nat} (h : Serves v k (s.core b) (s.core v)) : cursor b v s = k := by
  rw [cursor, h.nextIndex, Option.getD_some]

/-- An exchange of the leader `b` with its peer `v` has led from `s` to `s'`. -/
structure Exchanged (b v : Nat) (L : List LogEntry) (s s' : Cluster) : Prop where
  sync : Lib.Sync L (cursor b v s, (s.core v).logs) (cursor b v s', (s'.core v).logs)
  term : (s'.core b).term = (s.core b).term
  peer_le : (s.core v).term ≤ (s'.core v).term
  told : L.length ≤ cursor b v s → (s'.core v).term = (s.core b).term
  cursors : ∀ j, j ≠ v → cursor b j s' = cursor b j s
  others : ∀ j, j ≠ b → j ≠ v → s'.core j = s.core j

/-- A leader serves each of its peers. -/
theorem Leading.serves (h : Leading cfg b L s) (hb : b ∈ cfg.ids)
    (hcmd : ∀ e ∈ L, ∃ data, e.command = some data ∧ data ≠ []) (hv : v ∈ cfg.peers b) :
    Serves v (cursor b v s) (s.core b) (s.core v) := by
  obtain ⟨hvi, hvb⟩ := Config.mem_peers.1 hv
  have hnode := h.live.ok.nodes b hb
  have hpeer := h.live.ok.nodes v hvi
  have hids : (s.core b).peers.map (·.nodeId) = cfg.peers b := hnode.peers
  obtain ⟨node, hfind⟩ : ∃ node, (s.core b).peers.find? (·.nodeId = v) = some node := by
    rw [← hids] at hv
    obtain ⟨node, hn, he⟩ := List.mem_map.1 hv
    exact Option.isSome_iff_exists.1 (List.find?_isSome.2 ⟨node, hn, by simpa using he⟩)
  refine ⟨h.leader, h.pending, hnode.core.logs.ordered.indexed, ?_,
    hnode.core.logs.term_le, ?_, h.below v hvi, ?_, hpeer.core.logs.ordered.indexed, ?_⟩
  · rw [h.logs]
    exact hcmd
  · rw [cursor, hfind]
    rfl
  · rw [show (s.core b).nodeId = b from hnode.nodeId]
    exact hpeer.isValid hb (Ne.symm hvb)
  · rw [h.logs]
    exact h.agree v hvi

/-- **An exchange with a peer.** -/
theorem Leading.exchange (h : Leading cfg b L s) (hb : b ∈ cfg.ids)
    (hcmd : ∀ e ∈ L, ∃ data, e.command = some data ∧ data ≠ []) (hv : v ∈ cfg.peers b) :
    (Cluster.system cfg).Reach (Serving b)
      (fun s' => Leading cfg b L s' ∧ Exchanged b v L s s') s := by
  obtain ⟨hvi, hvb⟩ := Config.mem_peers.1 hv
  have hserves := h.serves hb hcmd hv
  obtain ⟨node, hfind, hk⟩ := Option.map_eq_some_iff.1 hserves.nextIndex
  have hid : node.nodeId = v := by simpa using List.find?_some hfind
  have hlenb : (s.core b).logs.length < 2 ^ 64 := (h.live.ok.nodes b hb).ok.store.length_lt
  have hlenv : (s.core v).logs.length < 2 ^ 64 := (h.live.ok.nodes v hvi).ok.store.length_lt
  have hlen := hserves.length_le node
  -- the request
  obtain ⟨s₁, hs₁, hb₁, ho₁, hboots₁, hnet₁⟩ := exists_broadcast h.live hb h.leader
    ((Core.current_of_none h.pending).trans h.pending.symm)
  have hlive₁ := h.live.step hs₁
  have hreq := hnet₁ node (List.mem_of_find?_eq_some hfind)
  rw [hid, ← hboots₁] at hreq
  have hv₁ : s₁.core v = s.core v := core_eq (ho₁ v hvb)
  -- its delivery
  obtain ⟨s₂, ⟨k₂, hs₂⟩, hv₂, ho₂, hboots₂, -, hnet₂⟩ := exists_handled hlive₁ hvi
    (by rw [hv₁]; omega) hreq
  have hlive₂ := hlive₁.step hs₂
  rw [← hboots₂] at hnet₂
  have hb₂ : s₂.core b = s.core b := (core_eq (ho₂ b (Ne.symm hvb))).trans hb₁
  rw [hv₁] at hv₂ hnet₂
  obtain ⟨k', hserves', hlogs', hsync⟩ := hserves.exchange hfind rfl rfl
  -- the answer
  obtain ⟨s₃, ⟨k₃, hs₃⟩, hb₃, ho₃, -⟩ := exists_answered hlive₂ hb
    (by rw [hb₂, hlogs']; exact hlenb) hnet₂
  have hv₃ : s₃.core v = ((s.core v).appendEntries ((s.core b).appendRequest node)).2 :=
    (core_eq (ho₃ v hvb)).trans hv₂
  rw [hb₂] at hb₃
  rw [← hb₃, ← hv₃] at hserves'
  rw [← hb₃] at hlogs'
  rw [← hv₃, h.logs] at hsync
  have hothers : ∀ j, j ≠ b → j ≠ v → s₃.core j = s.core j := fun j hjb hjv =>
    core_eq ((ho₃ j hjb).trans ((ho₂ j hjv).trans (ho₁ j hjb)))
  have happ := hserves.appendEntries_eq ((s.core b).appendRequest_leaderId node)
  rw [hserves.appendEntriesResponse_eq _ (by rw [happ]; exact hserves.peer_term)] at hb₃
  have hterm : (s₃.core b).term = (s.core b).term := by
    rw [hb₃]
    rfl
  have hterm_v : (s₃.core v).term =
      max (s.core v).term ((s.core b).appendRequest node).term := by
    rw [hv₃, happ]
    exact (s.core v).discover_term _
  refine .next (.inl rfl) hs₁ (.next (.inr ⟨k₂, rfl⟩) hs₂ (.step (.inr ⟨k₃, rfl⟩) hs₃ ⟨?_, ?_⟩))
  · refine ⟨hlive₂.step hs₃, hserves'.leader, hserves'.pending, hlogs'.trans h.logs,
      fun j hj => ?_, fun j hj => ?_⟩
    · by_cases hjv : j = v
      · exact hjv ▸ hserves'.peer_term
      · by_cases hjb : j = b
        · exact hjb ▸ Nat.le_refl _
        · rw [hothers j hjb hjv, hterm]
          exact h.below j hj
    · by_cases hjv : j = v
      · have hagree := hserves'.agree
        rw [hlogs', h.logs] at hagree
        exact hjv ▸ hagree
      · by_cases hjb : j = b
        · rw [hjb, hlogs']
          exact h.agree b hb
        · rw [hothers j hjb hjv]
          exact h.agree j hj
  · refine ⟨cursor_eq hserves' ▸ hsync, hterm, hterm_v ▸ Nat.le_max_left .., fun hle => ?_,
      fun j hj => ?_, hothers⟩
    · rw [hterm_v, hserves.appendRequest_term (by rw [h.logs, hk]; exact hle)]
      exact Nat.max_eq_right hserves.peer_term
    · unfold cursor
      rw [hb₃, Core.find?_updatePeer _ hj]

/-! ## Peers in step -/

/-- The peer `v` knows the leader's term and has its log, and is next sent what comes after it. -/
structure Synced (b v : Nat) (L : List LogEntry) (s : Cluster) : Prop where
  cursor : cursor b v s = L.length
  term : (s.core v).term = (s.core b).term
  logs : L ≠ [] → (s.core v).logs = L

/-- Another peer's exchange changes nothing. -/
theorem Exchanged.synced {j : Nat} (h : Exchanged b v L s s') (hjv : j ≠ v) (hjb : j ≠ b)
    (hj : Synced b j L s) : Synced b j L s' := by
  refine ⟨(h.cursors j hjv).trans hj.cursor, ?_, ?_⟩
  · rw [h.others j hjb hjv, h.term]
    exact hj.term
  · rw [h.others j hjb hjv]
    exact hj.logs

/-- Every other peer that was in step still is. -/
def KeepsSynced (cfg : Config) (b v : Nat) (L : List LogEntry) (s s' : Cluster) : Prop :=
  ∀ j ∈ cfg.peers b, j ≠ v → Synced b j L s → Synced b j L s'

theorem Exchanged.keepsSynced (h : Exchanged b v L s s') : KeepsSynced cfg b v L s s' :=
  fun _ hj hjv => h.synced hjv (Config.mem_peers.1 hj).2

/-- A peer's log comes to hold the leader's. -/
theorem Leading.level (h : Leading cfg b L s) (hb : b ∈ cfg.ids)
    (hcmd : ∀ e ∈ L, ∃ data, e.command = some data ∧ data ≠ []) (hv : v ∈ cfg.peers b) :
    (Cluster.system cfg).Reach (Serving b) (fun t => Leading cfg b L t ∧
      KeepsSynced cfg b v L s t ∧ cursor b v t = L.length ∧ L <+: (t.core v).logs) s := by
  refine Lib.System.Reach.of_measure
    (P := fun t => Leading cfg b L t ∧ KeepsSynced cfg b v L s t)
    (fun t => Lib.Sync.rank L (cursor b v t, (t.core v).logs)) (fun t ⟨ht, hkeep⟩ => ?_)
    ⟨h, fun _ _ _ hj => hj⟩
  by_cases hrank : Lib.Sync.rank L (cursor b v t, (t.core v).logs) = 0
  · exact .here (.inl ⟨ht, hkeep, Lib.Sync.of_rank_eq_zero hrank⟩)
  · refine (ht.exchange hb hcmd hv).mono fun u ⟨hu, hex⟩ => .inr ⟨⟨hu, ?_⟩, ?_⟩
    · exact fun j hj hjv hjs => hex.keepsSynced j hj hjv (hkeep j hj hjv hjs)
    · exact hex.sync.rank_lt hrank

/-- **A peer comes into step with the leader.** -/
theorem Leading.sync (h : Leading cfg b L s) (hb : b ∈ cfg.ids)
    (hcmd : ∀ e ∈ L, ∃ data, e.command = some data ∧ data ≠ []) (hv : v ∈ cfg.peers b) :
    (Cluster.system cfg).Reach (Serving b) (fun t => Leading cfg b L t ∧
      KeepsSynced cfg b v L s t ∧ Synced b v L t) s := by
  refine (h.level hb hcmd hv).bind fun t ⟨ht, hkeep, hcursor, hlogs⟩ => ?_
  -- a heartbeat tells the term, and the entry sent after it cuts the log to the leader's
  refine (ht.exchange hb hcmd hv).bind fun u ⟨hu, hex⟩ => ?_
  refine (hu.exchange hb hcmd hv).mono fun w ⟨hw, hex'⟩ => ⟨hw, ?_, ?_⟩
  · intro j hj hjv hjs
    exact hex'.keepsSynced j hj hjv (hex.keepsSynced j hj hjv (hkeep j hj hjv hjs))
  have hu_eq := hex.sync.last (Nat.le_of_eq hcursor.symm)
  rw [hcursor] at hu_eq
  obtain ⟨hcursor_u, hlogs_u⟩ := Prod.mk.inj hu_eq
  have hterm_u := hex.told (Nat.le_of_eq hcursor.symm)
  have hterm : (w.core v).term = (w.core b).term := by
    have h1 := hex'.peer_le
    have h2 := hw.below v (Config.mem_peers.1 hv).1
    rw [hex'.term, hex.term] at h2 ⊢
    omega
  have hsync := hex'.sync
  rw [hcursor_u, hlogs_u] at hsync
  rcases Nat.eq_zero_or_pos L.length with hzero | hpos
  · have hlast := hsync.last (by omega)
    exact ⟨(Prod.mk.inj hlast).1.trans (by omega), hterm,
      fun hne => absurd (List.length_eq_zero_iff.1 hzero) hne⟩
  · have hnext := hsync.next (by omega) ((List.take_prefix ..).trans hlogs)
    rw [Nat.sub_add_cancel hpos, List.take_length] at hnext
    exact ⟨(Prod.mk.inj hnext).1, hterm, fun _ => (Prod.mk.inj hnext).2⟩

/-- The peers `vs` are the only ones that may be out of step. -/
theorem Leading.reach (hb : b ∈ cfg.ids)
    (hcmd : ∀ e ∈ L, ∃ data, e.command = some data ∧ data ≠ []) :
    ∀ {vs : List Nat} {s : Cluster}, vs ⊆ cfg.peers b → Leading cfg b L s →
      (∀ j ∈ cfg.peers b, j ∉ vs → Synced b j L s) →
      (Cluster.system cfg).Reach (Serving b)
        (fun t => Leading cfg b L t ∧ ∀ j ∈ cfg.peers b, Synced b j L t) s
  | [], _, _, h, hrest => .here ⟨h, fun j hj => hrest j hj List.not_mem_nil⟩
  | v :: vs, s, hvs, h, hrest => by
    obtain ⟨hv, hvs⟩ := List.cons_subset.1 hvs
    refine (h.sync hb hcmd hv).bind fun t ⟨ht, hkeep, hdone⟩ => ?_
    refine Leading.reach hb hcmd hvs ht fun j hj hjvs => ?_
    by_cases hjv : j = v
    · exact hjv ▸ hdone
    · exact hkeep j hj hjv (hrest j hj (by simp [hjv, hjvs]))

/-- Two logs of a steady run agree. -/
theorem agree (hr : ClusterRun cfg Steady (s :: h)) {i j : Nat} (hi : i ∈ cfg.ids)
    (hj : j ∈ cfg.ids) : Logs.Agree (s.core i).logs (s.core j).logs := by
  have hlogs : ∀ i ∈ cfg.ids, Chained cfg (s :: h) (s.core i).logs := fun i hi =>
    Lib.Chained.of_prefix (chained hr (.head _) hi) (s.core i).logs_prefix_view
  exact Chained.agree hr (hlogs i hi) (hlogs j hj)

/-- **An inactive node with the logs of a majority behind its own can come to lead, with every peer
in step.** -/
theorem reach_synced (hr : ClusterRun cfg Steady (s :: h)) (hb : b ∈ cfg.ids)
    (hinactive : (s.nodes b).isActivated = false)
    (hterm : ∀ i ∈ cfg.ids, (s.core i).term < 2 ^ 64 - 1)
    (hmaj : cfg.ids.length / 2 + 1 ≤ cfg.ids.countP fun v =>
      (s.nodes v).store.lastLog.all fun log =>
        log.id ≤ ((s.nodes b).store.lastLog.map (·.id)).getD 0)
    (hcmd : ∀ e ∈ (s.core b).logs, ∃ data, e.command = some data ∧ data ≠ []) :
    (Cluster.system cfg).Reach
      (fun _ a => a = .electionTimer b ∨ a = .broadcastTimer b ∨ ∃ k, a = .deliver k)
      (fun t => Leading cfg b (s.core b).logs t ∧
        ∀ j ∈ cfg.peers b, Synced b j (s.core b).logs t) s := by
  have hlive : Live cfg s := live (hr.mono fun _ _ _ => trivial) s (.head _)
  have hfollows : (s.core b).state ≠ .leader := fun hl => by
    rw [(hlive.ok.nodes b hb).aligned.isActivated.2 hl] at hinactive
    cases hinactive
  have hwon := reach_won hlive hb hfollows hterm (Nat.le_trans hmaj (countP_electorate s hb))
  have hkeep := hwon.keep hlive fun _ _ _ hl hs => hl.step hs
  refine (hkeep.allow fun _ _ => Or.imp_right .inr).bind fun t ⟨hw, ht⟩ => ?_
  have hleading : Leading cfg b (s.core b).logs t :=
    { live := ht
      leader := hw.leads
      pending := hw.pending
      logs := hw.logs b hb
      below := hw.below
      agree := fun i hi => by
        rw [hw.logs i hi]
        exact agree hr hi hb }
  have hall := Leading.reach hb hcmd (List.Subset.refl (cfg.peers b)) hleading
    fun j hj hjb => absurd hj hjb
  exact hall.allow fun _ _ => .inr

end Cluster

/-- **The logs can be repaired.** From every reachable state of a steady run, an inactive node whose
log ends no earlier than those of a majority can become active and make all other logs equal to its
own, by nothing but its own timers and deliveries. -/
theorem logs_repairable {cfg : Config} {s : Cluster} {h : List Cluster}
    (hr : ClusterRun cfg (Cluster.Avoids Node.Deposed) (s :: h))
    (hterm : ∀ t ∈ s :: h, ∀ i ∈ cfg.ids, (t.nodes i).store.currentTerm < 2 ^ 64 - 1)
    {b : Nat} (hb : b ∈ cfg.ids) (hinactive : (s.nodes b).isActivated = false)
    (hmaj : cfg.ids.length / 2 + 1 ≤ cfg.ids.countP fun v =>
      (s.nodes v).store.lastLog.all fun log =>
        log.id ≤ ((s.nodes b).store.lastLog.map (·.id)).getD 0)
    (hne : (s.nodes b).store.logs ≠ [])
    (hcmd : ∀ e ∈ (s.nodes b).store.logs, ∃ data, e.command = some data ∧ data ≠ []) :
    (Cluster.system cfg).Reach
      (fun _ a => a = .electionTimer b ∨ a = .broadcastTimer b ∨ ∃ k, a = .deliver k)
      (fun t => (t.nodes b).isActivated = true ∧
        ∀ i ∈ cfg.ids, (t.nodes i).store.logs = (s.nodes b).store.logs) s := by
  have hsteady : ClusterRun cfg Cluster.Steady (s :: h) :=
    (Cluster.avoids_wraps hr hterm).mono fun _ _ hok => ⟨hok.2, hok.1⟩
  have hlead := Cluster.reach_synced hsteady hb hinactive (hterm s (.head _)) hmaj hcmd
  refine (hlead.mono fun t ⟨ht, hsynced⟩ => ⟨?_, fun i hi => ?_⟩)
  · exact (ht.live.ok.nodes b hb).aligned.isActivated.2 ht.leader
  · by_cases hib : i = b
    · exact hib ▸ ht.logs
    · exact (hsynced i (Config.mem_peers.2 ⟨hi, hib⟩)).logs hne

/-- Three nodes: the leader of term 1 and that of term 2 each have an entry of their own, and node 1
has none. Node 0, deposed, can become active again and bring its entry to the others. -/
theorem logs_repairable_deposed_leader :
    ∃ s h, ClusterRun (.range 3 (by decide)) (Cluster.Avoids Node.Deposed) (s :: h) ∧
      (s.nodes 0).store.logs = [⟨0, 1, some [1]⟩] ∧ (s.nodes 1).store.logs = [] ∧
      (s.nodes 2).store.logs = [⟨0, 2, some [2]⟩] ∧
      (Cluster.system (.range 3 (by decide))).Reach
        (fun _ a => a = .electionTimer 0 ∨ a = .broadcastTimer 0 ∨ ∃ k, a = .deliver k)
        (fun t => (t.nodes 0).isActivated = true ∧
          ∀ i ∈ [0, 1, 2], (t.nodes i).store.logs = (s.nodes 0).store.logs) s := by
  obtain ⟨h, hr, hc⟩ := Lib.System.exists_run (S := Cluster.system (.range 3 (by decide)))
    (Cluster.Avoids Node.Deposed)
    [.electionTimer 0, .deliver 0, .lose 0, .deliver 0, .commitCommand 0 [1], .broadcastTimer 0,
      .deliver 0, .lose 0, .deliver 0, .electionTimer 2, .lose 0, .deliver 0, .deliver 0,
      .electionTimer 2, .lose 0, .deliver 0, .deliver 0, .commitCommand 2 [2], .broadcastTimer 2,
      .deliver 0, .deliver 0, .deliver 0, .deliver 0]
    (fun
      | s :: h => (s :: h).all (fun t => [0, 1, 2].all fun i =>
            (t.nodes i).store.currentTerm < 2 ^ 64 - 1) &&
          decide ((s.nodes 0).isActivated = false ∧
            (s.nodes 0).store.logs = [⟨0, 1, some [1]⟩] ∧ (s.nodes 1).store.logs = [] ∧
            (s.nodes 2).store.logs = [⟨0, 2, some [2]⟩] ∧
            2 ≤ [0, 1, 2].countP fun v => (s.nodes v).store.lastLog.all fun log =>
              log.id ≤ ((s.nodes 0).store.lastLog.map (·.id)).getD 0)
      | [] => false) (by decide +kernel)
  split at hc
  · rename_i s h
    simp only [Bool.and_eq_true, List.all_eq_true, decide_eq_true_eq] at hc
    obtain ⟨hterm, hinactive, h0, h1, h2, hmaj⟩ := hc
    refine ⟨s, h, hr, h0, h1, h2, logs_repairable hr hterm (by decide) hinactive hmaj ?_ ?_⟩
    · rw [h0]
      decide
    · intro e he
      rw [h0, List.mem_singleton] at he
      exact ⟨[1], by rw [he], by decide⟩
  · cases hc

end Foros
