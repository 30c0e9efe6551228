import Foros.Cluster.System
import Foros.Raft.Proof.Crash

/-!
# Steps of a cluster

`Ok cfg s` collects what holds in every reachable state: each node is well formed and built from
`cfg`, and each packet comes from a member whose term covers it. A step from such a state is a
`Move` (`Ok.move`): one node takes a step of its core and its messages join the network, a packet
is dropped, or a node restarts with its stored context. The invariants of runs are proved by cases
of `Move`.
-/

namespace Foros

/-- The ids of the peers of node `i`. -/
def Config.peers (cfg : Config) (i : Nat) : List Nat :=
  (Node.initializeOtherNodes cfg.ids i 0).map (·.nodeId)

theorem Config.peers_eq (cfg : Config) (i n : Nat) :
    (Node.initializeOtherNodes cfg.ids i n).map (·.nodeId) = cfg.peers i := by
  simp [Config.peers, Node.initializeOtherNodes, Function.comp_def]

theorem Config.mem_peers {cfg : Config} {i j : Nat} : j ∈ cfg.peers i ↔ j ∈ cfg.ids ∧ j ≠ i := by
  simp [Config.peers, Node.initializeOtherNodes, Function.comp_def]

theorem Config.nodup_peers (cfg : Config) (i : Nat) : (cfg.peers i).Nodup := by
  have hp := (cfg.ids.filter (· ≠ i)).dedup.perm_insertionSort (· ≤ ·)
  have hd := List.nodup_dedup (cfg.ids.filter (· ≠ i))
  simpa [Config.peers, Node.initializeOtherNodes, Function.comp_def] using hp.symm.nodup hd

/-- A node that lost everything but its stored context. -/
def Core.restart (ids : List Nat) (c : Core) : Core :=
  { c with
    voteReceived := 0
    peers := Node.initializeOtherNodes ids c.nodeId c.logs.length
    pending := none
    state := .follower }

namespace Cluster

def core (s : Cluster) (i : Nat) : Core := (s.nodes i).core

/-! ## Reachable states -/

structure NodeOk (cfg : Config) (i : Nat) (n : Node) : Prop where
  ok : n.Ok
  aligned : n.Aligned
  core : n.core.Ok
  nodeId : n.nodeId = i
  clusterSize : n.clusterSize = cfg.ids.length
  majority : n.majority = cfg.ids.length / 2 + 1
  peers : n.otherNodes.map (·.nodeId) = cfg.peers i

/-- What a message says about its sender, whose term is `t`. -/
def MessageOk (src t : Nat) : Message → Prop
  | .appendEntries request =>
    request.leaderId = src ∧ request.term ≤ t ∧ ∃ V, ViewOk t V ∧ FromView V request
  | .appendEntriesResponse _ response => response.term ≤ t
  | .requestVote request => request.candidateId = src ∧ request.term ≤ t
  | .requestVoteResponse response => response.term ≤ t

theorem MessageOk.mono {src t t' : Nat} {m : Message} (h : MessageOk src t m) (ht : t ≤ t') :
    MessageOk src t' m := by
  cases m with
  | appendEntries request =>
    obtain ⟨h1, h2, V, h3, h4⟩ := h
    exact ⟨h1, Nat.le_trans h2 ht, V, h3.mono ht, h4⟩
  | appendEntriesResponse request response => exact Nat.le_trans h ht
  | requestVote request => exact ⟨h.1, Nat.le_trans h.2 ht⟩
  | requestVoteResponse response => exact Nat.le_trans h ht

structure PacketOk (cfg : Config) (s : Cluster) (p : Packet) : Prop where
  src : p.src ∈ cfg.ids
  dst : p.dst ∈ cfg.ids
  ne : p.src ≠ p.dst
  body : MessageOk p.src (s.core p.src).term p.body

structure Ok (cfg : Config) (s : Cluster) : Prop where
  nodes : ∀ i ∈ cfg.ids, NodeOk cfg i (s.nodes i)
  packets : ∀ p ∈ s.net, PacketOk cfg s p

/-! ## Moves -/

/-- Where the input of a callback of node `i` comes from, the packet it answers, and the network
without that packet. -/
inductive Source (s : Cluster) (i : Nat) : Input → Option Packet → List Packet → Prop
  | electionTimer : Source s i .electionTimer none s.net
  | broadcastTimer : Source s i .broadcastTimer none s.net
  | commitCommand (command : Command) : Source s i (.commitCommand (some command)) none s.net
  | packet {k : Nat} {p : Packet} : s.net[k]? = some p → s.orphan p = false → p.dst = i →
      Source s i (input p) (some p) (s.net.eraseIdx k)

/-- The packet behind an input, taken off the network. -/
structure Source.Of (s : Cluster) (i : Nat) (client : Option Packet) (net : List Packet)
    (p : Packet) : Prop where
  client : client = some p
  mem : p ∈ s.net
  dst : p.dst = i
  net : ∃ k, s.net[k]? = some p ∧ net = s.net.eraseIdx k

theorem body_of_input {p q : Packet} (h : input p = input q) : p.body = q.body := by
  unfold input at h
  cases hp : p.body <;> cases hq : q.body <;> simp_all

section

variable {s : Cluster} {i : Nat} {inp : Input} {client : Option Packet} {net : List Packet}

/-- An input that is a message came in a packet. -/
theorem Source.message (h : Source s i inp client net) {q : Packet} (hq : inp = input q) :
    ∃ p, p.body = q.body ∧ input p = input q ∧ Source.Of s i client net p := by
  cases h with
  | @packet k p hk _ hd =>
    exact ⟨p, body_of_input hq, hq, rfl, List.mem_of_getElem? hk, hd, k, hk, rfl⟩
  | _ =>
    unfold input at hq
    split at hq <;> cases hq

theorem Source.requestVote {request : RequestVoteRequest}
    (h : Source s i (.requestVote request) client net) :
    ∃ p, p.body = .requestVote request ∧ Source.Of s i client net p := by
  obtain ⟨p, hb, -, hof⟩ := h.message (q := ⟨0, 0, 0, .requestVote request⟩) rfl
  exact ⟨p, hb, hof⟩

theorem Source.requestVoteResponse {response : RequestVoteResponse}
    (h : Source s i (.requestVoteResponse response) client net) :
    ∃ p, p.body = .requestVoteResponse response ∧ Source.Of s i client net p := by
  obtain ⟨p, hb, -, hof⟩ := h.message (q := ⟨0, 0, 0, .requestVoteResponse response⟩) rfl
  exact ⟨p, hb, hof⟩

theorem Source.appendEntries {request : AppendEntriesRequest}
    (h : Source s i (.appendEntries request) client net) :
    ∃ p, p.body = .appendEntries request ∧ Source.Of s i client net p := by
  obtain ⟨p, hb, -, hof⟩ := h.message (q := ⟨0, 0, 0, .appendEntries request⟩) rfl
  exact ⟨p, hb, hof⟩

theorem Source.appendEntriesResponse {id : Nat} {request : AppendEntriesRequest}
    {response : AppendEntriesResponse}
    (h : Source s i (.appendEntriesResponse id request response) client net) :
    ∃ p, p.src = id ∧ p.body = .appendEntriesResponse request response ∧
      Source.Of s i client net p := by
  obtain ⟨p, hb, hinp, hof⟩ :=
    h.message (q := ⟨id, 0, 0, .appendEntriesResponse request response⟩) rfl
  refine ⟨p, ?_, hb, hof⟩
  unfold input at hinp
  simp only [hb, Input.appendEntriesResponse.injEq] at hinp
  exact hinp.1

end

/-- What a step does, in terms of cores. -/
inductive Move (cfg : Config) (s : Cluster) (a : Action) (s' : Cluster) : Prop
  | callback {i : Nat} {inp : Input} {client : Option Packet} {net : List Packet}
      {es : List Effect} :
      i ∈ cfg.ids → s.handled a = some (i, inp) → Source s i inp client net →
      (s.core i).Step inp (s'.core i) es → (s'.nodes i).visible = es →
      (∀ j, j ≠ i → s'.nodes j = s.nodes j) → s'.boots = s.boots →
      s'.net = net ++ es.filterMap (packet i (s.boots i) client) → Move cfg s a s'
  | drop {k : Nat} : s.handled a = none → s'.nodes = s.nodes → s'.boots = s.boots →
      s'.net = s.net.eraseIdx k → Move cfg s a s'
  | restart {i : Nat} : i ∈ cfg.ids → s.handled a = none →
      s'.core i = (s.core i).restart cfg.ids → (s'.nodes i).visible = [] →
      (∀ j, j ≠ i → s'.nodes j = s.nodes j) →
      s'.boots = Function.update s.boots i (s.boots i + 1) → s'.net = s.net → Move cfg s a s'

/-- Only visible effects are messages. -/
theorem filterMap_packet (i boot : Nat) (client : Option Packet) (es : List Effect) :
    es.filterMap (packet i boot client) =
      (es.filter Effect.visible).filterMap (packet i boot client) := by
  induction es with
  | nil => rfl
  | cons e es ih =>
    cases he : e.visible with
    | true => rw [List.filter_cons_of_pos he, List.filterMap_cons, List.filterMap_cons, ih]
    | false =>
      have hn : packet i boot client e = none := by cases e <;> simp_all [Effect.visible, packet]
      rw [List.filter_cons_of_neg (by simp [he]), List.filterMap_cons, hn, ih]

theorem callbackIn_inv {env : Env} {s s' : Cluster} {i : Nat} {inp : Input}
    {client : Option Packet} {net : List Packet} (h : s.callbackIn env i inp client net = some s') :
    ((s.nodes i).run env inp).store.logs.length < 2 ^ 64 ∧
      s' = { s with
        nodes := Function.update s.nodes i ((s.nodes i).run env inp)
        net := net ++
          ((s.nodes i).run env inp).trace.filterMap (packet i (s.boots i) client) } := by
  unfold callbackIn update at h
  split at h
  · cases h
    exact ⟨‹_›, rfl⟩
  · cases h

/-- A step of the transition system, before its callback is looked at. -/
theorem stepIn_inv {cfg : Config} {env : Env} {s s' : Cluster} {a : Action}
    (h : stepIn cfg env s a = some s') :
    (∃ i inp client net, s.handled a = some (i, inp) ∧ Source s i inp client net ∧
      (client = none → i ∈ cfg.ids) ∧
      ∀ e, stepIn cfg e s a = s.callbackIn e i inp client net) ∨
    (s.handled a = none ∧ (∀ e, stepIn cfg e s a = some s') ∧
      ∃ k, s' = { s with net := s.net.eraseIdx k }) ∨
    (s.handled a = none ∧ (∀ e, stepIn cfg e s a = some s') ∧ ∃ i ∈ cfg.ids, s' = { s with
      nodes := Function.update s.nodes i (Node.create .plain cfg.ids i (s.nodes i).store.db)
      boots := Function.update s.boots i (s.boots i + 1) }) := by
  cases a with
  | electionTimer i =>
    simp only [stepIn] at h ⊢
    split at h
    · exact .inl ⟨_, _, _, _, rfl, .electionTimer, fun _ => ‹_›, fun e => if_pos ‹_›⟩
    · cases h
  | broadcastTimer i =>
    simp only [stepIn] at h ⊢
    split at h
    · exact .inl ⟨_, _, _, _, rfl, .broadcastTimer, fun _ => ‹_›, fun e => if_pos ‹_›⟩
    · cases h
  | commitCommand i command =>
    simp only [stepIn] at h ⊢
    split at h
    · exact .inl ⟨_, _, _, _, rfl, .commitCommand command, fun _ => ‹_›, fun e => if_pos ‹_›⟩
    · cases h
  | deliver k =>
    simp only [stepIn] at h ⊢
    cases hk : s.net[k]? with
    | none => simp [hk] at h
    | some p =>
      simp only [hk] at h
      cases ho : s.orphan p with
      | true =>
        simp only [ho, if_true, Option.some.injEq] at h ⊢
        exact .inr (.inl ⟨by simp [handled, hk, ho], fun _ => h, k, h.symm⟩)
      | false =>
        exact .inl ⟨_, _, _, _, by simp [handled, hk, ho], .packet hk ho rfl, by simp,
          fun _ => if_neg (by simp [ho])⟩
  | lose k =>
    simp only [stepIn] at h ⊢
    split at h
    · cases h
      exact .inr (.inl ⟨rfl, fun _ => if_pos ‹_›, k, rfl⟩)
    · cases h
  | restart i =>
    simp only [stepIn] at h ⊢
    split at h
    · cases h
      exact .inr (.inr ⟨rfl, fun _ => if_pos ‹_›, i, ‹_›, rfl⟩)
    · cases h

/-! ## Callbacks keep the invariant -/

variable {cfg : Config} {s s' : Cluster} {a : Action}

theorem NodeOk.run {i : Nat} {n : Node} (h : NodeOk cfg i n) {inp : Input} (ht : inp.TermLt)
    (hin : inp.Ok) (hlen : (n.run .plain inp).store.logs.length < 2 ^ 64) :
    NodeOk cfg i (n.run .plain inp) := by
  obtain ⟨c, es, hstep, hcore, -, hal⟩ := Node.run_step h.ok.lastId inp
  have hpath := Node.run_path h.ok ht hlen
  have hok : (n.run .plain inp).core.Ok := hcore ▸ h.core.step hin hstep
  exact
    { ok := h.ok.run ht hlen
      aligned := hal h.aligned
      core := hok
      nodeId := hpath.nodeId.trans h.nodeId
      clusterSize := hpath.clusterSize.trans h.clusterSize
      majority := hpath.majority.trans h.majority
      peers := hpath.peers.trans h.peers }

/-- A node started on a store in order. -/
theorem nodeOk_create {i : Nat} (hi : i ∈ cfg.ids) {st : ContextStore} (hst : st.Ok)
    (hlogs : ViewOk st.currentTerm st.logs) :
    NodeOk cfg i (Node.create .plain cfg.ids i st.db) := by
  have hok := Node.create_ok hst (cfg.id_lt i hi) cfg.id_lt
  obtain ⟨hcore, -, -, hal⟩ := Node.create_spec hst.holds cfg.ids i
  rw [Nat.mod_eq_of_lt cfg.size_lt] at hcore
  generalize Node.create .plain cfg.ids i st.db = m at *
  have hpend : m.core.pending = none := congrArg Core.pending hcore
  exact
    { ok := hok
      aligned := hal
      core :=
        { logs := by rw [hcore]; exact hlogs
          pending := fun commit hc => by rw [hpend] at hc; cases hc
          term_pos := by rw [hcore]; simp }
      nodeId := congrArg Core.nodeId hcore
      clusterSize := congrArg Core.clusterSize hcore
      majority := congrArg Core.majority hcore
      peers := by rw [show m.otherNodes = _ from congrArg Core.peers hcore, cfg.peers_eq] }

theorem NodeOk.restart {i : Nat} {n : Node} (h : NodeOk cfg i n) :
    (Node.create .plain cfg.ids i n.store.db).core = n.core.restart cfg.ids ∧
      (Node.create .plain cfg.ids i n.store.db).visible = [] := by
  obtain ⟨hcore, -, hvis, -⟩ := Node.create_spec h.ok.store.holds cfg.ids i
  refine ⟨?_, hvis⟩
  have h1 := h.nodeId
  have h2 := h.clusterSize
  have h3 := h.majority
  rw [hcore, Nat.mod_eq_of_lt cfg.size_lt]
  simp only [Core.restart, Node.core, h1, h2, h3]

/-! ## Messages -/

/-- What a step of node `i` can send: the requests of its timers, and the answer to the packet
`client`. -/
inductive Sends (c : Core) (i boot : Nat) (client : Option Packet) : Input → Core → Packet → Prop
  | requestVote {node : OtherNode} : node ∈ c.campaign.peers →
      Sends c i boot client .electionTimer c.campaign
        ⟨i, node.nodeId, boot, .requestVote c.campaign.voteRequest⟩
  | appendEntries {node : OtherNode} : c.state = .leader → node ∈ c.peers →
      Sends c i boot client .broadcastTimer { c with pending := c.current }
        ⟨i, node.nodeId, boot, .appendEntries (c.appendRequest node)⟩
  | appendEntriesResponse {request : AppendEntriesRequest} {q : Packet} : client = some q →
      Sends c i boot client (.appendEntries request) (c.appendEntries request).2
        ⟨i, q.src, q.boot, .appendEntriesResponse request (c.appendEntries request).1⟩
  | requestVoteResponse {request : RequestVoteRequest} {q : Packet} : client = some q →
      Sends c i boot client (.requestVote request) (c.requestVote request).2
        ⟨i, q.src, q.boot, .requestVoteResponse (c.requestVote request).1⟩

theorem sends_of_step {c c' : Core} {inp : Input} {es : List Effect} {i boot : Nat}
    {client : Option Packet} {p : Packet} (hs : c.Step inp c' es)
    (hp : p ∈ es.filterMap (packet i boot client)) : Sends c i boot client inp c' p := by
  obtain ⟨e, he, hpe⟩ := List.mem_filterMap.1 hp
  have hm : Core.Message e := by cases e <;> simp_all [Core.Message, packet]
  cases hs.sends he hm with
  | requestVote hn =>
    cases hpe
    exact .requestVote hn
  | appendEntries hl hn =>
    cases hpe
    exact .appendEntries hl hn
  | appendEntriesResponse request =>
    obtain ⟨q, hq, rfl⟩ := Option.map_eq_some_iff.1 hpe
    exact .appendEntriesResponse hq
  | requestVoteResponse request =>
    obtain ⟨q, hq, rfl⟩ := Option.map_eq_some_iff.1 hpe
    exact .requestVoteResponse hq

/-- The messages of a step are the node's own, and its new term covers them. -/
theorem Sends.messageOk {c c' : Core} {inp : Input} {i boot : Nat} {client : Option Packet}
    {p : Packet} (h : Sends c i boot client inp c' p) (hok : c.Ok) (hid : c.nodeId = i)
    (hle : c.term ≤ c'.term) :
    p.src = i ∧ MessageOk i c'.term p.body ∧
      (p.dst ∈ c.peers.map (·.nodeId) ∨ ∃ q, client = some q ∧ p.dst = q.src) := by
  cases h with
  | requestVote hm =>
    refine ⟨rfl, ⟨?_, Nat.le_refl _⟩, .inl ?_⟩
    · exact c.campaign_nodeId.trans hid
    · rw [← c.campaign_peerIds]
      exact List.mem_map_of_mem hm
  | @appendEntries node _ hm =>
    exact ⟨rfl, ⟨(c.appendRequest_leaderId node).trans hid, hok.appendRequest_term_le node,
      c.view, hok.view, hok.fromView node⟩, .inl (List.mem_map_of_mem hm)⟩
  | @appendEntriesResponse request q hq =>
    refine ⟨rfl, ?_, .inr ⟨q, hq, rfl⟩⟩
    change (c.appendEntries request).1.term ≤ (c.appendEntries request).2.term
    refine Nat.le_trans ?_ hle
    unfold Core.appendEntries
    split
    · exact Nat.zero_le _
    · exact Nat.le_refl _
  | @requestVoteResponse request q hq =>
    refine ⟨rfl, ?_, .inr ⟨q, hq, rfl⟩⟩
    change (c.requestVote request).1.term ≤ (c.requestVote request).2.term
    rcases c.requestVote_cases request with he | he | ⟨-, -, he⟩ <;> rw [he]
    exact Nat.zero_le _

/-- The input of a callback is well formed. -/
theorem Ok.input (h : Ok cfg s) {i : Nat} {inp : Input} {client : Option Packet}
    {net : List Packet} (hsrc : Source s i inp client net) :
    inp.TermLt ∧ inp.Ok ∧ (∀ p ∈ net, p ∈ s.net) ∧ (∀ p, client = some p → p ∈ s.net) := by
  cases hsrc with
  | electionTimer => exact ⟨trivial, trivial, fun _ hp => hp, by simp⟩
  | broadcastTimer => exact ⟨trivial, trivial, fun _ hp => hp, by simp⟩
  | commitCommand command => exact ⟨trivial, rfl, fun _ hp => hp, by simp⟩
  | @packet k p hk ho hd =>
    have hp : p ∈ s.net := List.mem_of_getElem? hk
    obtain ⟨hsrc, hdst, hne, hbody⟩ := h.packets p hp
    have hlt : (s.core p.src).term < 2 ^ 64 := (h.nodes _ hsrc).ok.store.term_lt
    have hrest : (∀ p' ∈ s.net.eraseIdx k, p' ∈ s.net) ∧ ∀ p', some p = some p' → p' ∈ s.net :=
      ⟨fun _ hm => List.mem_of_mem_eraseIdx hm, fun p' he => by cases he; exact hp⟩
    unfold Cluster.input
    cases hb : p.body with
    | appendEntries request =>
      rw [hb] at hbody
      obtain ⟨-, hle, V, hV, hreq⟩ := hbody
      exact ⟨Nat.lt_of_le_of_lt hle hlt, ⟨V, hV.ordered, hreq⟩, hrest⟩
    | appendEntriesResponse request response =>
      rw [hb] at hbody
      exact ⟨Nat.lt_of_le_of_lt hbody hlt, trivial, hrest⟩
    | requestVote request =>
      rw [hb] at hbody
      exact ⟨Nat.lt_of_le_of_lt hbody.2 hlt, trivial, hrest⟩
    | requestVoteResponse response =>
      rw [hb] at hbody
      exact ⟨Nat.lt_of_le_of_lt hbody hlt, trivial, hrest⟩

/-- A callback is one of a member. -/
theorem Ok.source (h : Ok cfg s) {i : Nat} {inp : Input} {client : Option Packet}
    {net : List Packet} (hsrc : Source s i inp client net) (hnone : client = none → i ∈ cfg.ids) :
    i ∈ cfg.ids := by
  cases hsrc with
  | packet hk ho hd => exact hd ▸ (h.packets _ (List.mem_of_getElem? hk)).dst
  | _ => exact hnone rfl

/-- The callback that a step runs. -/
theorem Ok.run_of_handled {a : Action} (h : Ok cfg s) (hs : step cfg s a = some s') {i : Nat}
    {inp : Input} (hh : s.handled a = some (i, inp)) :
    i ∈ cfg.ids ∧ s'.nodes i = (s.nodes i).run .plain inp := by
  rcases stepIn_inv hs with ⟨j, inp', client, net, hj, hsrc, hnone, hcall⟩ | ⟨hn, -⟩ | ⟨hn, -⟩
  · cases hh.symm.trans hj
    obtain ⟨-, rfl⟩ := callbackIn_inv ((hcall .plain).symm.trans hs)
    exact ⟨h.source hsrc hnone, Function.update_self ..⟩
  · cases hh.symm.trans hn
  · cases hh.symm.trans hn

/-- Packets stay in order while the terms of their senders grow. -/
theorem PacketOk.mono {p : Packet} (h : PacketOk cfg s p)
    (ht : ∀ i ∈ cfg.ids, (s.core i).term ≤ (s'.core i).term) : PacketOk cfg s' p :=
  ⟨h.src, h.dst, h.ne, h.body.mono (ht _ h.src)⟩

/-- **A step from a state that is in order** is a move to a state that is. -/
theorem Ok.move (h : Ok cfg s) (hs : step cfg s a = some s') : Move cfg s a s' ∧ Ok cfg s' := by
  rcases stepIn_inv hs with ⟨i, inp, client, net, hh, hsrc, hnone, hcall⟩ | ⟨hh, -, k, rfl⟩ |
    ⟨hh, -, i, hi, rfl⟩
  · obtain ⟨hlen, rfl⟩ := callbackIn_inv ((hcall .plain).symm.trans hs)
    obtain ⟨hterm, hin, hnet, hclient⟩ := h.input hsrc
    have hi := h.source hsrc hnone
    obtain ⟨c, es, hstep, hcore, hvis, -⟩ := Node.run_step (h.nodes i hi).ok.lastId inp
    have hnode := (h.nodes i hi).run hterm hin hlen
    have hmsgs : ((s.nodes i).run .plain inp).trace.filterMap (packet i (s.boots i) client) =
        es.filterMap (packet i (s.boots i) client) := by
      rw [filterMap_packet, ← hvis]
      rfl
    generalize hrun : (s.nodes i).run .plain inp = n at *
    subst hcore
    have hnow : Function.update s.nodes i n i = n := Function.update_self ..
    have hothers : ∀ j, j ≠ i → Function.update s.nodes i n j = s.nodes j :=
      fun j hj => Function.update_of_ne hj ..
    rw [hmsgs]
    have hle : ∀ j ∈ cfg.ids, (s.core j).term ≤ (Function.update s.nodes i n j).core.term := by
      intro j _
      by_cases hj : j = i
      · rw [hj, hnow]
        exact hstep.term_le
      · rw [hothers j hj]
        exact Nat.le_refl _
    refine ⟨.callback hi hh hsrc ?_ ?_ hothers rfl rfl, fun j hj => ?_, fun p hp => ?_⟩
    · simpa only [Cluster.core, hnow] using hstep
    · simpa only [hnow] using hvis
    · by_cases hji : j = i
      · simpa only [hji, hnow] using hnode
      · simpa only [hothers j hji] using h.nodes j hj
    · rcases List.mem_append.1 hp with hp | hp
      · exact (h.packets p (hnet p hp)).mono hle
      · obtain ⟨hsrc', hmsg, hdst⟩ :=
          (sends_of_step hstep hp).messageOk (h.nodes i hi).core (h.nodes i hi).nodeId
            hstep.term_le
        have hdst' : p.dst ∈ cfg.ids ∧ p.dst ≠ i := by
          rcases hdst with hd | ⟨q, hq, hd⟩
          · rw [show (s.nodes i).core.peers.map (·.nodeId) = cfg.peers i from
              (h.nodes i hi).peers] at hd
            exact Config.mem_peers.1 hd
          · have hok := h.packets q (hclient q hq)
            have hqi : q.dst = i := by
              cases hsrc with
              | packet _ _ hd' => cases hq; exact hd'
              | _ => cases hq
            exact hd ▸ ⟨hok.src, hqi ▸ hok.ne⟩
        refine ⟨hsrc' ▸ hi, hdst'.1, hsrc' ▸ Ne.symm hdst'.2, ?_⟩
        simpa only [Cluster.core, hsrc', hnow] using hmsg
  · refine ⟨.drop hh rfl rfl rfl, h.nodes, fun p hp => ?_⟩
    exact (h.packets p (List.mem_of_mem_eraseIdx hp)).mono fun _ _ => Nat.le_refl _
  · obtain ⟨hcore, hvis⟩ := (h.nodes i hi).restart
    have hnode := nodeOk_create hi (h.nodes i hi).ok.store (h.nodes i hi).core.logs
    generalize Node.create .plain cfg.ids i (s.nodes i).store.db = n at *
    have hnow : Function.update s.nodes i n i = n := Function.update_self ..
    have hothers : ∀ j, j ≠ i → Function.update s.nodes i n j = s.nodes j :=
      fun j hj => Function.update_of_ne hj ..
    refine ⟨.restart hi hh ?_ ?_ hothers rfl rfl, fun j hj => ?_,
      fun p hp => (h.packets p hp).mono fun j _ => ?_⟩
    · simpa only [Cluster.core, hnow] using hcore
    · simpa only [hnow] using hvis
    · by_cases hji : j = i
      · simpa only [hji, hnow] using hnode
      · simpa only [hothers j hji] using h.nodes j hj
    · by_cases hji : j = i
      · simp only [Cluster.core, hji, hnow, hcore]
        exact Nat.le_refl _
      · simp only [Cluster.core, hothers j hji]
        exact Nat.le_refl _

/-- A node that starts for the first time. -/
theorem init_core (cfg : Config) (i : Nat) :
    (init cfg).core i =
      { nodeId := i
        clusterSize := cfg.ids.length
        majority := cfg.ids.length / 2 + 1
        term := 0
        votedFor := 0
        voted := false
        voteReceived := 0
        logs := []
        peers := Node.initializeOtherNodes cfg.ids i 0
        pending := none
        state := .follower } := by
  have h := (Node.create_spec ContextStore.empty_ok.holds cfg.ids i).1
  rw [Nat.mod_eq_of_lt cfg.size_lt, ContextStore.empty_db] at h
  exact h

theorem Ok.init (cfg : Config) : Ok cfg (init cfg) := by
  refine ⟨fun i hi => ?_, fun p hp => ?_⟩
  · have h := nodeOk_create hi ContextStore.empty_ok ⟨.nil, fun _ he => absurd he List.not_mem_nil⟩
    rw [ContextStore.empty_db] at h
    exact h
  · simp [Cluster.init] at hp

end Cluster

/-- **Every state of a run is in order.** -/
theorem ClusterRun.ok {cfg : Config} {ok : Cluster → Action → Prop} {h : List Cluster}
    (hr : ClusterRun cfg ok h) : ∀ s ∈ h, Cluster.Ok cfg s :=
  hr.forall_mem (Cluster.Ok.init cfg) fun _ _ _ hs _ hstep => (hs.move hstep).2

/-! ## Well-formed logs -/

/-- The request's predecessor is the index below its entry, no younger than it. -/
theorem FromView.prev {V : List LogEntry} {request : AppendEntriesRequest} (h : FromView V request)
    (hV : Logs.Ordered V) (hk : 0 < request.leaderCommit) :
    request.prevLogIndex = request.leaderCommit - 1 ∧ request.prevLogTerm ≤ request.term := by
  rcases h with ⟨-, h0⟩ | ⟨hent, hprev⟩
  · omega
  · obtain ⟨hidx, e, he, hterm⟩ := hprev (by omega)
    refine ⟨hidx, ?_⟩
    rw [← hterm]
    exact hV.term_le (Nat.sub_le _ 1) he hent

/-- **Logs are well formed** in every reachable state: entries stand at their ids, terms never
decrease along a log and never exceed the node's, and every request in flight names the
predecessor of its entry and carries a term its sender has reached. -/
theorem logs_wellFormed {cfg : Config} {h : List Cluster}
    (hr : ClusterRun cfg (fun _ _ => True) h) :
    ∀ s ∈ h,
      (∀ i ∈ cfg.ids,
        (∀ (k : Nat) (e : LogEntry), (s.nodes i).store.logs[k]? = some e → e.id = k) ∧
        (∀ (j k : Nat) (e e' : LogEntry), j ≤ k → (s.nodes i).store.logs[j]? = some e →
          (s.nodes i).store.logs[k]? = some e' → e.term ≤ e'.term) ∧
        ∀ e ∈ (s.nodes i).store.logs, e.term ≤ (s.nodes i).store.currentTerm) ∧
      ∀ p ∈ s.net, ∀ request, p.body = .appendEntries request → 0 < request.leaderCommit →
        request.prevLogIndex = request.leaderCommit - 1 ∧
        request.prevLogTerm ≤ request.term ∧
        request.term ≤ (s.nodes p.src).store.currentTerm := by
  intro s hs
  have hok := hr.ok s hs
  refine ⟨fun i hi => ?_, fun p hp request hb hk => ?_⟩
  · have hlogs := (hok.nodes i hi).core.logs
    exact ⟨hlogs.ordered.indexed, fun _ _ _ _ hjk hj hk => hlogs.ordered.term_le hjk hj hk,
      hlogs.term_le⟩
  · have hmsg := (hok.packets p hp).body
    rw [hb] at hmsg
    obtain ⟨-, hle, V, hV, hreq⟩ := hmsg
    obtain ⟨h1, h2⟩ := hreq.prev hV.ordered hk
    exact ⟨h1, h2, hle⟩

/-- Two nodes: the leader has one entry and sends the second. -/
theorem logs_wellFormed_second_entry :
    ∃ h, ClusterRun (.range 2 (by decide)) (fun _ _ => True) h ∧
      ∃ s ∈ h, ∃ p ∈ s.net, ∃ request, p.body = .appendEntries request ∧
        request.leaderCommit = 1 ∧ request.prevLogIndex = 0 ∧
        request.prevLogTerm ≤ request.term := by
  obtain ⟨h, hr, hc⟩ := Lib.System.exists_run (S := Cluster.system (.range 2 (by decide)))
    (fun _ _ => True)
    [.electionTimer 0, .deliver 0, .deliver 0, .commitCommand 0 [1], .broadcastTimer 0,
      .deliver 0, .deliver 0, .broadcastTimer 0, .deliver 0, .deliver 0, .commitCommand 0 [2],
      .broadcastTimer 0]
    (fun h => h.any fun s => s.net.any fun p => match p.body with
      | .appendEntries request => request.leaderCommit == 1
      | _ => false) (by decide +kernel)
  obtain ⟨s, hs, hc⟩ := List.any_eq_true.1 hc
  obtain ⟨p, hp, hc⟩ := List.any_eq_true.1 hc
  cases hb : p.body with
  | appendEntries request =>
    simp only [hb, beq_iff_eq] at hc
    obtain ⟨h1, h2, -⟩ := (logs_wellFormed hr s hs).2 p hp request hb (by omega)
    exact ⟨h, hr, s, hs, p, hp, request, hb, hc, by omega, h2⟩
  | _ => simp [hb] at hc

end Foros
