import Foros.Cluster.Proof.Live
import Foros.Cluster.Proof.Replication
import Foros.Lib.Reach
import Mathlib.Data.Finset.Max

/-!
# A leader can be elected

From every reachable state, whatever is lost or out of date in it, a node can be elected whose log
reaches as far as those of a majority (`electable`): its election timer fires until it is a
candidate in a term above all others, and its requests for votes and the answers are delivered. No
other timer fires and no log changes on the way. The node with the longest log is always one of
these, so a cluster is never stuck without a leader (`leader_possible`).
-/

namespace Foros

/-! ## One callback of the election timer -/

namespace Node

variable {n : Node}

theorem Timed.electionTimer_eq (h : n.Timed) (hs : n.state ≠ .standby) :
    n.electionTimer = true := by
  rw [h.election]
  simpa using hs

/-- A leader has been heard of: the timer only notes that. -/
theorem run_idle (h : n.Timed) (hs : n.state ≠ .standby) (hr : n.broadcastReceived = true) :
    run .plain .electionTimer n = { n with trace := [], broadcastReceived := false } := by
  simp [run, dispatch, onElectionTimer, h.electionTimer_eq hs, hr]

/-- No leader has been heard of: an election starts. -/
theorem run_campaign (h : n.Timed) (hs : n.state = .follower ∨ n.state = .candidate)
    (hr : n.broadcastReceived = false) :
    (run .plain .electionTimer n).core = n.core.campaign ∧
      (run .plain .electionTimer n).visible = n.core.campaign.voteRequests := by
  have hne : n.state ≠ .standby := by rcases hs with hs | hs <;> simp [hs]
  have he : run .plain .electionTimer n = handle .plain .timedout { n with trace := [] } := by
    simp [run, dispatch, onElectionTimer, h.electionTimer_eq hne, hr]
  rw [he]
  rcases hs with hs | hs
  · have hspec := handle_timedout_follower (n := { n with trace := [] }) hs
    exact ⟨hspec.core, hspec.visible⟩
  · have hspec := handle_timedout_candidate (n := { n with trace := [] }) hs
    exact ⟨hspec.core, hspec.visible⟩

end Node

namespace Core

variable {c : Core}

theorem requestVote_of_grants {request : RequestVoteRequest}
    (hv : c.isValid request.candidateId = true) (hg : (c.observe request.term).Grants request) :
    c.requestVote request = (⟨(c.observe request.term).term, true⟩,
      { c.observe request.term with votedFor := request.candidateId, voted := true }) := by
  unfold Core.requestVote vote
  rw [if_neg (by simp [hv])]
  simp only [if_pos hg, decide_eq_true hg]

/-- A request of a newer term is granted to a log that ends no earlier. -/
theorem grants_of_lt {request : RequestVoteRequest} (hlt : c.term < request.term)
    (hlast : ∀ log ∈ c.logs.getLast?, log.id ≤ request.lastDataIndex) :
    (c.observe request.term).Grants request := by
  refine ⟨?_, ?_, ?_⟩
  · rw [observe_term, Nat.max_eq_right (Nat.le_of_lt hlt)]
  · rw [observe_of_lt hlt, down_voted, resetVote]
  · rwa [observe_logs]

/-- A granted vote for the present term. -/
theorem requestVoteResponse_granted :
    c.requestVoteResponse ⟨c.term, true⟩ =
      elect { c with voteReceived := (c.voteReceived + 1) % 2 ^ 32 } := by
  simp [Core.requestVoteResponse]

/-- A candidate stays one, short of a majority, or leads. -/
theorem elect_candidate (hs : c.state = .candidate) :
    (c.elect = c ∧ c.voteReceived < c.majority) ∨
      (c.elect.state = .leader ∧ c.majority ≤ c.voteReceived) := by
  rcases Nat.lt_or_ge c.voteReceived c.majority with hlt | hge
  · exact .inl ⟨elect_of_lt hlt, hlt⟩
  · right
    rw [elect_of_le hge]
    exact ⟨if_pos hs, hge⟩

theorem elect_majority : c.elect.majority = c.majority := by
  obtain ⟨ps, st, h, -⟩ := c.elect_eq
  rw [h]

end Core

namespace Cluster

variable {cfg : Config} {s s' : Cluster}

/-! ## Making a step -/

/-- What is known of a callback of node `i` that has been run. -/
structure Called (s : Cluster) (i : Nat) (inp : Input) (client : Option Packet)
    (net : List Packet) (s' : Cluster) : Prop where
  node : s'.nodes i = (s.nodes i).run .plain inp
  others : ∀ j, j ≠ i → s'.nodes j = s.nodes j
  boots : s'.boots = s.boots
  net : s'.net = net ++ (s'.nodes i).visible.filterMap (packet i (s.boots i) client)

/-- A callback that leaves the log alone can be run. -/
theorem exists_callback (s : Cluster) (i : Nat) (inp : Input) (client : Option Packet)
    (net : List Packet)
    (hlen : ((s.nodes i).run .plain inp).store.logs.length < 2 ^ 64) :
    ∃ s', s.callback i inp client net = some s' ∧ Called s i inp client net s' := by
  refine ⟨_, if_pos hlen, ?_⟩
  refine ⟨Function.update_self .., fun j hj => Function.update_of_ne hj .., rfl, ?_⟩
  simp only [Function.update_self]
  rw [filterMap_packet]
  rfl

theorem mem_eraseIdx_of_ne {l : List Packet} {k : Nat} {p q : Packet} (hp : p ∈ l)
    (hk : l[k]? = some q) (hne : p ≠ q) : p ∈ l.eraseIdx k := by
  obtain ⟨i, hi⟩ := List.mem_iff_getElem?.1 hp
  refine List.mem_eraseIdx_iff_getElem?.2 ⟨i, fun hik => ?_, hi⟩
  rw [hik, hk] at hi
  exact hne (Option.some.inj hi).symm

theorem step_deliver {k : Nat} {p : Packet} (hk : s.net[k]? = some p) (ho : s.orphan p = false) :
    step cfg s (.deliver k) = s.callback p.dst (input p) (some p) (s.net.eraseIdx k) := by
  simp [step, stepIn, hk, ho]

/-! ## Canvassing -/

/-- The steps of an election of node `b`: its election timer and deliveries. -/
def Electing (b : Nat) (_ : Cluster) (a : Action) : Prop :=
  a = .electionTimer b ∨ ∃ k, a = .deliver k

/-- Node `b` has been elected in the highest term, and the logs are those of `s₀`. -/
structure Won (cfg : Config) (s₀ : Cluster) (b : Nat) (s : Cluster) : Prop where
  leads : (s.core b).state = .leader
  pending : (s.core b).pending = none
  below : ∀ i ∈ cfg.ids, (s.core i).term ≤ (s.core b).term
  logs : ∀ i ∈ cfg.ids, (s.core i).logs = (s₀.core i).logs

/-- Node `b` is a candidate whose request is on its way to the nodes `vs`, which have not heard of
its term. Their votes make a majority. -/
structure Canvass (cfg : Config) (s₀ : Cluster) (b : Nat) (request : RequestVoteRequest)
    (vs : List Nat) (s : Cluster) : Prop where
  live : Live cfg s
  candidate : (s.core b).state = .candidate
  term : (s.core b).term = request.term
  few : (s.core b).voteReceived < (s.core b).majority
  enough : (s.core b).majority ≤ (s.core b).voteReceived + vs.length
  nodup : vs.Nodup
  voters : ∀ v ∈ vs, v ∈ cfg.ids ∧ v ≠ b ∧ (s.core v).term < request.term ∧
    ∀ log ∈ (s.core v).logs.getLast?, log.id ≤ request.lastDataIndex
  asked : ∀ v ∈ vs, ⟨b, v, s.boots b, .requestVote request⟩ ∈ s.net
  below : ∀ i ∈ cfg.ids, (s.core i).term ≤ request.term
  logs : ∀ i ∈ cfg.ids, (s.core i).logs = (s₀.core i).logs

/-- A node of the cluster knows its peers. -/
theorem NodeOk.isValid {i j : Nat} {n : Node} (h : NodeOk cfg i n) (hj : j ∈ cfg.ids)
    (hne : j ≠ i) : n.core.isValid j = true := by
  have hm : j ∈ n.otherNodes.map (·.nodeId) := by
    rw [h.peers]
    exact Config.mem_peers.2 ⟨hj, hne⟩
  obtain ⟨node, hn, he⟩ := List.mem_map.1 hm
  exact List.any_eq_true.2 ⟨node, hn, by simpa using he⟩

/-- A voter grants its vote. -/
theorem Canvass.grant {s₀ : Cluster} {b v : Nat} {request : RequestVoteRequest} {vs : List Nat}
    (hb : b ∈ cfg.ids) (hid : request.candidateId = b)
    (h : Canvass cfg s₀ b request (v :: vs) s) :
    ∃ s', (∃ k, step cfg s (.deliver k) = some s') ∧ s'.boots = s.boots ∧
      (∀ j, j ≠ v → s'.nodes j = s.nodes j) ∧ (s'.core v).logs = (s.core v).logs ∧
      (s'.core v).term = request.term ∧
      (∀ p ∈ s.net, p ≠ ⟨b, v, s.boots b, .requestVote request⟩ → p ∈ s'.net) ∧
      ⟨v, b, s.boots b, .requestVoteResponse ⟨request.term, true⟩⟩ ∈ s'.net := by
  obtain ⟨hv, hvb, hlt, hlast⟩ := h.voters v (.head _)
  have hnode := h.live.ok.nodes v hv
  obtain ⟨k, hk⟩ := List.mem_iff_getElem?.1 (h.asked v (.head _))
  obtain ⟨c, es, hstep, hcore, hvis, -⟩ := Node.run_step hnode.ok.lastId (.requestVote request)
  have hgrant := Core.requestVote_of_grants (c := s.core v)
    (hid ▸ hnode.isValid hb (Ne.symm hvb)) (Core.grants_of_lt hlt hlast)
  have hc : c = ((s.core v).requestVote request).2 ∧
      es = [.replyRequestVote request ((s.core v).requestVote request).1] := by
    cases hstep
    exact ⟨rfl, rfl⟩
  obtain ⟨rfl, rfl⟩ := hc
  rw [hgrant] at hcore hvis
  have hlogs : ((s.nodes v).run .plain (.requestVote request)).store.logs = (s.core v).logs :=
    (congrArg Core.logs hcore).trans (Core.observe_logs ..)
  obtain ⟨s', hcall, hcalled⟩ := exists_callback s v (.requestVote request)
    (some ⟨b, v, s.boots b, .requestVote request⟩) (s.net.eraseIdx k)
    (by rw [hlogs]; exact hnode.ok.store.length_lt)
  refine ⟨s', ⟨k, (step_deliver hk rfl).trans hcall⟩, hcalled.boots, hcalled.others, ?_, ?_, ?_, ?_⟩
  · unfold core
    rw [hcalled.node]
    exact hlogs
  · unfold core
    rw [hcalled.node, hcore]
    exact (Core.observe_term ..).trans (Nat.max_eq_right (Nat.le_of_lt hlt))
  · intro p hp hne
    rw [hcalled.net]
    exact List.mem_append_left _ (mem_eraseIdx_of_ne hp hk hne)
  · rw [hcalled.net, hcalled.node, hvis, Core.observe_term, Nat.max_eq_right (Nat.le_of_lt hlt)]
    exact List.mem_append_right _ (.head _)

/-- The candidate counts a vote. -/
theorem exists_count {b v : Nat} {request : RequestVoteRequest} (hlive : Live cfg s)
    (hb : b ∈ cfg.ids) (hterm : (s.core b).term = request.term)
    (hp : ⟨v, b, s.boots b, .requestVoteResponse ⟨request.term, true⟩⟩ ∈ s.net) :
    ∃ s', (∃ k, step cfg s (.deliver k) = some s') ∧ s'.boots = s.boots ∧
      (∀ j, j ≠ b → s'.nodes j = s.nodes j) ∧
      (∀ w, ⟨b, w, s.boots b, .requestVote request⟩ ∈ s.net →
        ⟨b, w, s.boots b, .requestVote request⟩ ∈ s'.net) ∧
      s'.core b = { s.core b with
        voteReceived := ((s.core b).voteReceived + 1) % 2 ^ 32 }.elect := by
  have hnode := hlive.ok.nodes b hb
  obtain ⟨k, hk⟩ := List.mem_iff_getElem?.1 hp
  obtain ⟨c, es, hstep, hcore, -, -⟩ :=
    Node.run_step hnode.ok.lastId (.requestVoteResponse ⟨request.term, true⟩)
  have hc : c = (s.core b).requestVoteResponse ⟨(s.core b).term, true⟩ := by
    rw [hterm]
    cases hstep
    rfl
  rw [hc, Core.requestVoteResponse_granted] at hcore
  obtain ⟨s', hcall, hcalled⟩ := exists_callback s b
    (.requestVoteResponse ⟨request.term, true⟩)
    (some ⟨v, b, s.boots b, .requestVoteResponse ⟨request.term, true⟩⟩)
    (s.net.eraseIdx k) (by
      rw [show ((s.nodes b).run .plain _).store.logs = (s.core b).logs from
        (congrArg Core.logs hcore).trans (Core.elect_logs _)]
      exact hnode.ok.store.length_lt)
  refine ⟨s', ⟨k, (step_deliver hk (by simp [orphan])).trans hcall⟩, hcalled.boots,
    hcalled.others, fun w hw => ?_, ?_⟩
  · rw [hcalled.net]
    exact List.mem_append_left _ (mem_eraseIdx_of_ne hw hk nofun)
  · unfold core
    rw [hcalled.node]
    exact hcore

/-- **The votes of a majority make a leader.** -/
theorem Canvass.reach {s₀ : Cluster} {b : Nat} {request : RequestVoteRequest} (hb : b ∈ cfg.ids)
    (hid : request.candidateId = b) : ∀ {vs : List Nat} {s : Cluster},
    Canvass cfg s₀ b request vs s →
      (Cluster.system cfg).Reach (Electing b) (Won cfg s₀ b) s
  | [], s, h => by
    have h1 := h.few
    have h2 := h.enough
    simp only [List.length_nil] at h2
    omega
  | v :: vs, s, h => by
    obtain ⟨hv, hvb, -, -⟩ := h.voters v (.head _)
    obtain ⟨hvvs, hnodup⟩ := List.nodup_cons.1 h.nodup
    obtain ⟨s₁, ⟨k, hk⟩, hboots, hothers, hlogs, hv₁, hnet, hreply⟩ := h.grant hb hid
    have hlive₁ := h.live.step hk
    have hb₁ : s₁.core b = s.core b := core_eq (hothers b (Ne.symm hvb))
    obtain ⟨s₂, ⟨k', hk'⟩, hboots₂, hothers₂, hnet₂, hcore₂⟩ := exists_count hlive₁ hb
      (by rw [hb₁, h.term]) (by rw [hboots]; exact hreply)
    refine .next (.inr ⟨k, rfl⟩) hk (.next (.inr ⟨k', rfl⟩) hk' ?_)
    -- neither step has touched a log
    have hlogs₂ : ∀ i ∈ cfg.ids, (s₂.core i).logs = (s₀.core i).logs := by
      intro i hi
      rw [← h.logs i hi]
      by_cases hib : i = b
      · subst hib
        rw [hcore₂, Core.elect_logs, hb₁]
      · rw [core_eq (hothers₂ i hib)]
        by_cases hiv : i = v
        · subst hiv
          exact hlogs
        · rw [core_eq (hothers i hiv)]
    have hmaj : (s.core b).majority < 2 ^ 32 := by
      have := (h.live.ok.nodes b hb).majority
      have := cfg.size_lt
      change (s.nodes b).majority < _
      omega
    have hfew := h.few
    have henough := h.enough
    simp only [List.length_cons] at henough
    have hcount : ((s.core b).voteReceived + 1) % 2 ^ 32 = (s.core b).voteReceived + 1 :=
      Nat.mod_eq_of_lt (by omega)
    rw [hb₁, hcount] at hcore₂
    have hterm₂ : (s₂.core b).term = request.term := by
      rw [hcore₂, Core.elect_term]
      exact h.term
    have hbelow₂ : ∀ i ∈ cfg.ids, (s₂.core i).term ≤ request.term := by
      intro i hi
      by_cases hib : i = b
      · exact hib ▸ Nat.le_of_eq hterm₂
      · rw [core_eq (hothers₂ i hib)]
        by_cases hiv : i = v
        · exact hiv ▸ Nat.le_of_eq hv₁
        · rw [core_eq (hothers i hiv)]
          exact h.below i hi
    rcases Core.elect_candidate (c := { s.core b with voteReceived := (s.core b).voteReceived + 1 })
      h.candidate with ⟨hstay, hlt⟩ | ⟨hl, -⟩
    · rw [hstay] at hcore₂
      apply Canvass.reach hb hid
      exact
        { live := hlive₁.step hk'
          candidate := by rw [hcore₂]; exact h.candidate
          term := hterm₂
          few := by rw [hcore₂]; exact hlt
          enough := by
            rw [hcore₂]
            change (s.core b).majority ≤ (s.core b).voteReceived + 1 + vs.length
            omega
          nodup := hnodup
          voters := fun w hw => by
            obtain ⟨h1, h2, h3⟩ := h.voters w (.tail _ hw)
            have hwv : w ≠ v := fun he => hvvs (he ▸ hw)
            rw [core_eq (hothers₂ w h2), core_eq (hothers w hwv)]
            exact ⟨h1, h2, h3⟩
          asked := fun w hw => by
            have hwv : w ≠ v := fun he => hvvs (he ▸ hw)
            have hold := hnet _ (h.asked w (.tail _ hw)) (by simp [hwv])
            rw [hboots₂, hboots]
            exact hboots ▸ hnet₂ w (hboots ▸ hold)
          below := hbelow₂
          logs := hlogs₂ }
    · have hne : (s.core b).state ≠ .leader := by
        rw [h.candidate]
        decide
      have hnone : (s.core b).pending = none := (h.live.ok.nodes b hb).core.pending_none hne
      refine .here ⟨by rw [hcore₂]; exact hl, ?_, fun i hi => ?_, hlogs₂⟩
      · rw [hcore₂, Core.elect_pending]
        exact hnone
      · rw [hterm₂]
        exact hbelow₂ i hi

/-! ## Standing -/

/-- Node `b` has yet to reach the term `T`; the other nodes are those of `s₀`. -/
structure Rising (cfg : Config) (s₀ : Cluster) (b T : Nat) (s : Cluster) : Prop where
  live : Live cfg s
  others : ∀ j, j ≠ b → s.nodes j = s₀.nodes j
  logs : (s.core b).logs = (s₀.core b).logs
  follows : (s.core b).state ≠ .leader
  term : (s.core b).term < T

/-- The peers of `b` whose logs end no later than the log of `b`. -/
def electorate (cfg : Config) (s : Cluster) (b : Nat) : List Nat :=
  (cfg.peers b).filter fun v => (s.nodes v).store.lastLog.all fun log =>
    log.id ≤ ((s.nodes b).store.lastLog.map (·.id)).getD 0

/-- A candidate whose term is above all others has asked for votes. -/
theorem Rising.canvass {s₀ : Cluster} {b T : Nat} (hb : b ∈ cfg.ids)
    (hmaj : cfg.ids.length / 2 + 1 ≤ 1 + (electorate cfg s₀ b).length)
    (hbelow : ∀ i ∈ cfg.ids, (s₀.core i).term < T) (h : Rising cfg s₀ b T s)
    (hlive : Live cfg s') (hterm : (s.core b).campaign.term = T)
    (hothers : ∀ j, j ≠ b → s'.nodes j = s.nodes j)
    (hcore : s'.core b = (s.core b).campaign)
    (hstate : (s.core b).campaign.state = .candidate)
    (hfew : 1 < (s.core b).majority)
    (hnet : ∀ v ∈ (s.core b).peers.map (·.nodeId),
      ⟨b, v, s'.boots b, .requestVote (s.core b).campaign.voteRequest⟩ ∈ s'.net) :
    Canvass cfg s₀ b (s.core b).campaign.voteRequest (electorate cfg s₀ b) s' := by
  have hnode := h.live.ok.nodes b hb
  have hmajority : (s.core b).campaign.majority = (s.core b).majority := Core.elect_majority
  have hmaj' : (s.core b).majority = cfg.ids.length / 2 + 1 := hnode.majority
  have hmem : ∀ v ∈ electorate cfg s₀ b, v ∈ cfg.peers b := fun v hv => List.mem_of_mem_filter hv
  refine
    { live := hlive
      candidate := by rw [hcore, hstate]
      term := by rw [hcore]; rfl
      few := by rw [hcore, hmajority, Core.campaign_voteReceived]; exact hfew
      enough := by rw [hcore, hmajority, Core.campaign_voteReceived, hmaj']; exact hmaj
      nodup := (cfg.nodup_peers b).filter _
      voters := fun v hv => ?_
      asked := fun v hv => ?_
      below := fun i hi => ?_
      logs := fun i hi => ?_ }
  · obtain ⟨hvi, hvb⟩ := Config.mem_peers.1 (hmem v hv)
    have hv₀ : s'.core v = s₀.core v := core_eq ((hothers v hvb).trans (h.others v hvb))
    refine ⟨hvi, hvb, ?_, fun log hlog => ?_⟩
    · change (s'.core v).term < (s.core b).campaign.term
      rw [hv₀, hterm]
      exact hbelow v hvi
    · rw [hv₀] at hlog
      have hlast := (List.mem_filter.1 hv).2
      have hle : log.id ≤ ((s₀.nodes b).store.lastLog.map (·.id)).getD 0 := by
        have hl : (s₀.nodes v).store.lastLog = some log := hlog
        simpa [hl] using hlast
      change log.id ≤ ((s.core b).campaign.logs.getLast?.map (·.id)).getD 0
      rw [Core.campaign_logs, h.logs]
      exact hle
  · apply hnet
    rw [show (s.core b).peers.map (·.nodeId) = cfg.peers b from hnode.peers]
    exact hmem v hv
  · change (s'.core i).term ≤ (s.core b).campaign.term
    by_cases hib : i = b
    · rw [hib, hcore]
    · rw [core_eq (hothers i hib), core_eq (h.others i hib), hterm]
      exact Nat.le_of_lt (hbelow i hi)
  · by_cases hib : i = b
    · subst hib
      rw [hcore, Core.campaign_logs, h.logs]
    · rw [core_eq (hothers i hib), core_eq (h.others i hib)]

/-- How far the candidate is from the term `T`, and whether it has heard of a leader. -/
def distance (b T : Nat) (s : Cluster) : Nat :=
  2 * (T - (s.core b).term) + if (s.nodes b).broadcastReceived then 1 else 0

/-- The election timer of `b` fires. -/
theorem Rising.fire {s₀ : Cluster} {b T : Nat} (hb : b ∈ cfg.ids)
    (hmaj : cfg.ids.length / 2 + 1 ≤ 1 + (electorate cfg s₀ b).length)
    (hbelow : ∀ i ∈ cfg.ids, (s₀.core i).term < T) (hT : T < 2 ^ 64)
    (h : Rising cfg s₀ b T s) :
    (Cluster.system cfg).Reach (Electing b)
      (fun s' => (Won cfg s₀ b s' ∨ ∃ request vs, request.candidateId = b ∧
          Canvass cfg s₀ b request vs s') ∨
        Rising cfg s₀ b T s' ∧ distance b T s' < distance b T s) s := by
  have hnode := h.live.ok.nodes b hb
  have htimed := h.live.timed b hb
  have hstate : (s.nodes b).state = .follower ∨ (s.nodes b).state = .candidate := by
    have h1 : (s.nodes b).state ≠ .leader := h.follows
    have h2 : (s.nodes b).state ≠ .standby := h.live.started b hb
    cases hst : (s.nodes b).state <;> simp_all
  have hstep : ∀ s', s.callback b .electionTimer none s.net = some s' →
      step cfg s (.electionTimer b) = some s' := fun s' hs => by simp [step, stepIn, hb, hs]
  cases hr : (s.nodes b).broadcastReceived with
  | true =>
    -- the first firing only clears the flag
    have hrun := Node.run_idle htimed (h.live.started b hb) hr
    obtain ⟨s', hcall, hcalled⟩ := exists_callback s b .electionTimer
      none s.net (by rw [hrun]; exact hnode.ok.store.length_lt)
    have hcore : s'.core b = s.core b := by
      unfold core
      rw [hcalled.node, hrun]
      rfl
    refine .step (.inl rfl) (hstep s' hcall) (.inr ⟨?_, ?_⟩)
    · exact
        { live := h.live.step (hstep s' hcall)
          others := fun j hj => (hcalled.others j hj).trans (h.others j hj)
          logs := hcore ▸ h.logs
          follows := hcore ▸ h.follows
          term := hcore ▸ h.term }
    · unfold distance
      rw [hcore, hcalled.node, hrun, hr]
      simp
  | false =>
    obtain ⟨hcore, hvis⟩ := Node.run_campaign htimed hstate hr
    obtain ⟨s', hcall, hcalled⟩ := exists_callback s b .electionTimer
      none s.net (by
        rw [show ((s.nodes b).run .plain .electionTimer).store.logs = (s.core b).logs from
          (congrArg Core.logs hcore).trans (Core.campaign_logs _)]
        exact hnode.ok.store.length_lt)
    have hlive := h.live.step (hstep s' hcall)
    have hterm := h.term
    have hnext : (s.core b).campaign.term = (s.core b).term + 1 := by
      rw [Core.campaign_term, Core.nextTerm_of_lt (by omega)]
    have hcore' : s'.core b = (s.core b).campaign := by
      unfold core
      rw [hcalled.node]
      exact hcore
    refine .step (.inl rfl) (hstep s' hcall) ?_
    have hlogs : (s'.core b).logs = (s₀.core b).logs := by
      rw [hcore', Core.campaign_logs, h.logs]
    rcases Core.elect_candidate (c := { s.core b with
        term := (s.core b).nextTerm, votedFor := (s.core b).nodeId, voted := true
        voteReceived := 1, state := .candidate }) rfl with ⟨hstay, hlt⟩ | ⟨hl, hone⟩
    · have hcand : (s.core b).campaign.state = .candidate := by
        rw [Core.campaign, hstay]
      rcases Nat.lt_or_eq_of_le (show (s.core b).term + 1 ≤ T by omega) with hlt' | heq
      · refine .inr ⟨⟨hlive, fun j hj => (hcalled.others j hj).trans (h.others j hj), hlogs,
          ?_, ?_⟩, ?_⟩
        · rw [hcore', hcand]
          decide
        · rw [hcore', hnext]
          exact hlt'
        · unfold distance
          rw [hcore', hnext]
          split <;> split <;> omega
      · refine .inl (.inr ⟨_, _, ?_, h.canvass hb hmaj hbelow hlive (hnext.trans heq)
          hcalled.others hcore' hcand hlt fun v hv => ?_⟩)
        · exact (s.core b).campaign_nodeId.trans hnode.nodeId
        · rw [← Core.campaign_peerIds] at hv
          obtain ⟨node, hn, rfl⟩ := List.mem_map.1 hv
          rw [hcalled.net, hcalled.node, hcalled.boots, hvis]
          exact List.mem_append_right _ (List.mem_filterMap.2
            ⟨_, List.mem_map.2 ⟨node, hn, rfl⟩, rfl⟩)
    · -- its own vote is a majority, so there is no other node
      have hmajority : (s.core b).majority = cfg.ids.length / 2 + 1 := hnode.majority
      have hsize : cfg.ids.length ≤ 1 := by
        have hone : (s.core b).majority ≤ 1 := hone
        omega
      have halone : ∀ i ∈ cfg.ids, i = b := by
        obtain ⟨x, hx⟩ := List.length_eq_one_iff.1
          (Nat.le_antisymm hsize (List.length_pos_of_mem hb))
        simp only [hx, List.mem_singleton] at hb ⊢
        exact fun i hi => hi.trans hb.symm
      refine .inl (.inl ⟨by rw [hcore']; exact hl, ?_, fun i hi => ?_, fun i hi => ?_⟩)
      · rw [hcore', Core.campaign_pending]
        exact hnode.core.pending_none h.follows
      · rw [halone i hi]
      · rw [halone i hi]
        exact hlogs

/-- The highest term of the members. -/
def highestTerm (cfg : Config) (s : Cluster) : Nat :=
  cfg.ids.foldr (fun i t => max (s.core i).term t) 0

theorem le_highestTerm (s : Cluster) {i : Nat} : ∀ {ids : List Nat}, i ∈ ids →
    (s.core i).term ≤ ids.foldr (fun i t => max (s.core i).term t) 0
  | _ :: _, .head _ => Nat.le_max_left _ _
  | _ :: _, .tail _ hi => Nat.le_trans (le_highestTerm s hi) (Nat.le_max_right _ _)

theorem highestTerm_lt (s : Cluster) {n : Nat} (hn : 0 < n) : ∀ {ids : List Nat},
    (∀ i ∈ ids, (s.core i).term < n) → ids.foldr (fun i t => max (s.core i).term t) 0 < n
  | [], _ => hn
  | i :: _, h => Nat.max_lt.2 ⟨h i (.head _), highestTerm_lt s hn fun j hj => h j (.tail _ hj)⟩

/-- A node with the logs of a majority behind its own can come to lead. -/
theorem reach_won (hlive : Live cfg s) {b : Nat} (hb : b ∈ cfg.ids)
    (hl : (s.core b).state ≠ .leader)
    (hterm : ∀ i ∈ cfg.ids, (s.core i).term < 2 ^ 64 - 1)
    (hmaj : cfg.ids.length / 2 + 1 ≤ 1 + (electorate cfg s b).length) :
    (Cluster.system cfg).Reach (Electing b) (Won cfg s b) s := by
  have hbelow : ∀ i ∈ cfg.ids, (s.core i).term < highestTerm cfg s + 1 := fun i hi =>
    Nat.lt_succ_of_le (le_highestTerm s hi)
  have hT : highestTerm cfg s < 2 ^ 64 - 1 := highestTerm_lt s (by decide) hterm
  have hrising : Rising cfg s b (highestTerm cfg s + 1) s :=
    { live := hlive
      others := fun _ _ => rfl
      logs := rfl
      follows := hl
      term := hbelow b hb }
  have hstand := Lib.System.Reach.of_measure (distance b (highestTerm cfg s + 1))
    (fun _ h => Rising.fire hb hmaj hbelow (by omega) h) hrising
  refine hstand.bind fun s' hs' => ?_
  rcases hs' with hw | ⟨request, vs, hid, hc⟩
  · exact .here hw
  · exact hc.reach hb hid

/-- A node with the logs of a majority behind its own leads, or can come to lead. -/
theorem reach_leader (hlive : Live cfg s) {b : Nat} (hb : b ∈ cfg.ids)
    (hterm : ∀ i ∈ cfg.ids, (s.core i).term < 2 ^ 64 - 1)
    (hmaj : cfg.ids.length / 2 + 1 ≤ 1 + (electorate cfg s b).length) :
    (Cluster.system cfg).Reach (Electing b) (fun t => (t.nodes b).isActivated = true ∧
      ∀ i ∈ cfg.ids, (t.core i).logs = (s.core i).logs) s := by
  by_cases hl : (s.core b).state = .leader
  · exact .here ⟨(hlive.ok.nodes b hb).aligned.isActivated.2 hl, fun _ _ => rfl⟩
  have hwon := reach_won hlive hb hl hterm hmaj
  refine (hwon.keep hlive fun _ _ _ hl hs => hl.step hs).mono fun t ⟨hw, ht⟩ => ?_
  exact ⟨(ht.ok.nodes b hb).aligned.isActivated.2 hw.leads, hw.logs⟩

/-- The members whose logs end no later than the log of `b` are `b` and its electorate. -/
theorem countP_electorate (s : Cluster) {b : Nat} (hb : b ∈ cfg.ids) :
    (cfg.ids.countP fun v => (s.nodes v).store.lastLog.all fun log =>
      log.id ≤ ((s.nodes b).store.lastLog.map (·.id)).getD 0) ≤
    1 + (electorate cfg s b).length := by
  rw [← (Config.perm_peers hb).countP_eq, electorate, ← List.countP_eq_length_filter,
    List.countP_cons]
  split <;> omega

end Cluster

/-- **A leader can be elected.** From every reachable state whose terms are not the last one, a node
whose log ends no earlier than those of a majority can become active, by nothing but its own
election timer and deliveries, and the logs are then as they were. -/
theorem electable {cfg : Config} {s : Cluster} {h : List Cluster}
    (hr : ClusterRun cfg (fun _ _ => True) (s :: h)) {b : Nat} (hb : b ∈ cfg.ids)
    (hterm : ∀ i ∈ cfg.ids, (s.nodes i).store.currentTerm < 2 ^ 64 - 1)
    (hmaj : cfg.ids.length / 2 + 1 ≤ cfg.ids.countP fun v =>
      (s.nodes v).store.lastLog.all fun log =>
        log.id ≤ ((s.nodes b).store.lastLog.map (·.id)).getD 0) :
    (Cluster.system cfg).Reach (fun _ a => a = .electionTimer b ∨ ∃ k, a = .deliver k)
      (fun t => (t.nodes b).isActivated = true ∧
        ∀ i ∈ cfg.ids, (t.nodes i).store.logs = (s.nodes i).store.logs) s := by
  exact Cluster.reach_leader (Cluster.live hr s (.head _)) hb hterm
    (Nat.le_trans hmaj (Cluster.countP_electorate s hb))

/-- Three nodes: the leader of term 1 has an entry that node 1 has, and not node 2. Node 1 can be
elected. -/
theorem electable_second_node :
    ∃ s h, ClusterRun (.range 3 (by decide)) (fun _ _ => True) (s :: h) ∧
      (s.nodes 0).isActivated = true ∧ (s.nodes 2).store.logs = [] ∧
      (Cluster.system (.range 3 (by decide))).Reach
        (fun _ a => a = .electionTimer 1 ∨ ∃ k, a = .deliver k)
        (fun t => (t.nodes 1).isActivated = true ∧
          ∀ i ∈ [0, 1, 2], (t.nodes i).store.logs = (s.nodes i).store.logs) s := by
  obtain ⟨h, hr, hc⟩ := Lib.System.exists_run (S := Cluster.system (.range 3 (by decide)))
    (fun _ _ => True)
    [.electionTimer 0, .deliver 0, .lose 0, .deliver 0, .broadcastTimer 0, .lose 1, .deliver 0,
      .deliver 0, .commitCommand 0 [1], .broadcastTimer 0, .lose 1, .deliver 0]
    (fun
      | s :: _ => decide ((s.nodes 0).isActivated ∧ (s.nodes 2).store.logs = [] ∧
          (∀ i ∈ [0, 1, 2], (s.nodes i).store.currentTerm < 2 ^ 64 - 1) ∧
          2 ≤ [0, 1, 2].countP fun v => (s.nodes v).store.lastLog.all fun log =>
            log.id ≤ ((s.nodes 1).store.lastLog.map (·.id)).getD 0)
      | [] => false) (by decide +kernel)
  split at hc
  · rename_i s h
    obtain ⟨h0, h2, hterm, hmaj⟩ := of_decide_eq_true hc
    exact ⟨s, h, hr, h0, h2, electable hr (by decide) hterm hmaj⟩
  · cases hc

/-- **A cluster is never stuck without a leader**: some node can be elected. -/
theorem leader_possible {cfg : Config} {s : Cluster} {h : List Cluster}
    (hr : ClusterRun cfg (fun _ _ => True) (s :: h)) (hne : cfg.ids ≠ [])
    (hterm : ∀ i ∈ cfg.ids, (s.nodes i).store.currentTerm < 2 ^ 64 - 1) :
    ∃ b ∈ cfg.ids, (Cluster.system cfg).Reach
      (fun _ a => a = .electionTimer b ∨ ∃ k, a = .deliver k)
      (fun t => (t.nodes b).isActivated = true) s := by
  have hlive := Cluster.live hr s (.head _)
  obtain ⟨b, hb, hmax⟩ := cfg.ids.toFinset.exists_max_image
    (fun i => ((s.nodes i).store.lastLog.map (·.id)).getD 0) (by simpa using hne)
  rw [List.mem_toFinset] at hb
  have hall : (cfg.ids.countP fun v => (s.nodes v).store.lastLog.all fun log =>
      log.id ≤ ((s.nodes b).store.lastLog.map (·.id)).getD 0) = cfg.ids.length := by
    refine List.countP_eq_length.2 fun v hv => ?_
    have hle := hmax v (List.mem_toFinset.2 hv)
    cases hl : (s.nodes v).store.lastLog with
    | none => rfl
    | some log => simpa [hl] using hle
  have hpos := List.length_pos_of_ne_nil hne
  have hreach := Cluster.reach_leader hlive hb hterm
    (Nat.le_trans (by omega) (Cluster.countP_electorate s hb))
  exact ⟨b, hb, hreach.mono fun t ht => ht.1⟩

/-- Three nodes: all of them stand in term 1, and no vote is granted. A leader can still be
elected. -/
theorem leader_possible_split_vote :
    ∃ s h, ClusterRun (.range 3 (by decide)) (fun _ _ => True) (s :: h) ∧
      (∀ i ∈ [0, 1, 2], (s.nodes i).state = .candidate) ∧ s.net = [] ∧
      ∃ b ∈ [0, 1, 2], (Cluster.system (.range 3 (by decide))).Reach
        (fun _ a => a = .electionTimer b ∨ ∃ k, a = .deliver k)
        (fun t => (t.nodes b).isActivated = true) s := by
  obtain ⟨h, hr, hc⟩ := Lib.System.exists_run (S := Cluster.system (.range 3 (by decide)))
    (fun _ _ => True)
    [.electionTimer 0, .electionTimer 1, .electionTimer 2, .deliver 0, .deliver 0, .deliver 0,
      .deliver 0, .deliver 0, .deliver 0, .deliver 0, .deliver 0, .deliver 0, .deliver 0,
      .deliver 0, .deliver 0]
    (fun
      | s :: _ => decide ((∀ i ∈ [0, 1, 2], (s.nodes i).state = .candidate) ∧ s.net = [] ∧
          ∀ i ∈ [0, 1, 2], (s.nodes i).store.currentTerm < 2 ^ 64 - 1)
      | [] => false) (by decide +kernel)
  split at hc
  · rename_i s h
    obtain ⟨hcand, hnet, hterm⟩ := of_decide_eq_true hc
    exact ⟨s, h, hr, hcand, hnet, leader_possible hr (by decide) hterm⟩
  · cases hc

end Foros
