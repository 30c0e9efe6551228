import Foros.Cluster.Proof.Terms
import Mathlib.Data.List.Perm.Subperm

/-!
# Messages are paid for by timers

Only a timer sends requests, one to each peer; a request is answered once, and an answer sends
nothing, not even when it makes a leader. So a request weighs two messages and an answer one: the
weight of the network and the number of messages that have left it grow by `2 (N - 1)` with every
firing of a timer, and by nothing else (`traffic_bounded`). Without timers a cluster of any size
falls silent.
-/

namespace Foros

/-- How many messages a message stands for: itself and its answer. -/
def Message.weight : Message → Nat
  | .appendEntries _ => 2
  | .requestVote _ => 2
  | .appendEntriesResponse _ _ => 1
  | .requestVoteResponse _ => 1

/-- What a callback takes off the network. -/
def Input.weight : Input → Nat
  | .appendEntries _ => 2
  | .requestVote _ => 2
  | .appendEntriesResponse _ _ _ => 1
  | .requestVoteResponse _ => 1
  | _ => 0

/-- A timer. -/
def Input.isTimer : Input → Bool
  | .electionTimer => true
  | .broadcastTimer => true
  | _ => false

namespace Cluster

variable {cfg : Config} {s s' : Cluster} {a : Action}

/-- What the network still has to carry. -/
def weight : List Packet → Nat
  | [] => 0
  | p :: net => p.body.weight + weight net

theorem weight_append (net net' : List Packet) :
    weight (net ++ net') = weight net + weight net' := by
  induction net with
  | nil => simp [weight]
  | cons p net ih => simp [weight, ih, Nat.add_assoc]

theorem weight_eraseIdx : ∀ {net : List Packet} {k : Nat} {p : Packet}, net[k]? = some p →
    weight (net.eraseIdx k) + p.body.weight = weight net
  | q :: net, 0, p, h => by
    cases h
    simp [weight, Nat.add_comm]
  | q :: net, k + 1, p, h => by
    have ih : weight (net.eraseIdx k) + _ = weight net := weight_eraseIdx h
    simp only [weight, List.eraseIdx_cons_succ] at ih ⊢
    omega

/-- A timer fires. -/
def isTimer : Action → Bool
  | .electionTimer _ => true
  | .broadcastTimer _ => true
  | _ => false

/-- A message leaves the network. -/
def isReception : Action → Bool
  | .deliver _ => true
  | .lose _ => true
  | _ => false

theorem input_weight (p : Packet) : (input p).weight = p.body.weight ∧ 0 < p.body.weight := by
  unfold input
  cases p.body <;> exact ⟨rfl, Nat.succ_pos _⟩

theorem length_peers {i : Nat} (hi : i ∈ cfg.ids) :
    (cfg.peers i).length ≤ cfg.ids.length - 1 := by
  have hsub : cfg.peers i ⊆ cfg.ids.erase i := fun j hj => by
    obtain ⟨h1, h2⟩ := Config.mem_peers.1 hj
    exact (cfg.nodup.mem_erase_iff).2 ⟨h2, h1⟩
  have hle := (List.Nodup.subperm (cfg.nodup_peers i) hsub).length_le
  rwa [List.length_erase_of_mem hi] at hle

section

variable {c c' : Core} {inp : Input} {es : List Effect} {i boot : Nat} {client : Option Packet}

/-- What is no message stays. -/
theorem filterMap_notices (h : ∀ e ∈ es, ¬ Core.Message e) :
    es.filterMap (packet i boot client) = [] := by
  refine List.filterMap_eq_nil_iff.2 fun e he => ?_
  have hm := h e he
  cases e <;> simp_all [Core.Message, packet]

/-- The requests of a timer, one to each peer. -/
theorem weight_requests {peers : List OtherNode} {f : OtherNode → Effect}
    (hf : ∀ node, ∃ p : Packet, packet i boot client (f node) = some p ∧ p.body.weight = 2) :
    weight ((peers.map f).filterMap (packet i boot client)) = 2 * peers.length := by
  induction peers with
  | nil => rfl
  | cons node peers ih =>
    obtain ⟨p, hp, hw⟩ := hf node
    rw [List.map_cons, List.filterMap_cons_some hp]
    simp only [weight, List.length_cons] at ih ⊢
    omega

theorem weight_singleton_le {e : Effect}
    (he : ∀ p, packet i boot client e = some p → p.body.weight = 1) :
    weight ([e].filterMap (packet i boot client)) ≤ 1 := by
  cases hp : packet i boot client e with
  | none => simp [hp, weight]
  | some p => simp [hp, weight, he p hp]

/-- **What a callback sends**: a timer a request to each peer, and a message less than it weighs. -/
theorem weight_sent (h : c.Step inp c' es) :
    weight (es.filterMap (packet i boot client)) ≤
      (inp.weight - 1) + if inp.isTimer then 2 * c.peers.length else 0 := by
  cases h with
  | idleElection => exact Nat.zero_le _
  | campaign _ =>
    have hlen : c.campaign.peers.length = c.peers.length := by
      have hids := congrArg List.length c.campaign_peerIds
      rwa [List.length_map, List.length_map] at hids
    unfold Core.voteRequests
    rw [weight_requests fun node => ⟨⟨i, node.nodeId, boot, _⟩, rfl, rfl⟩, hlen]
    exact Nat.le_add_left ..
  | idleBroadcast => exact Nat.zero_le _
  | broadcast _ =>
    unfold Core.appendRequests
    rw [weight_requests fun node => ⟨⟨i, node.nodeId, boot, _⟩, rfl, rfl⟩]
    exact Nat.le_add_left ..
  | commitCommand command promise =>
    rw [filterMap_notices fun e he hm =>
      nomatch (Core.Step.commitCommand command promise).sends he hm]
    exact Nat.zero_le _
  | appendEntries request =>
    rw [List.filterMap_append, filterMap_notices fun e he => Core.not_message_appendNotices he]
    exact weight_singleton_le fun p hp => by
      obtain ⟨q, -, rfl⟩ := Option.map_eq_some_iff.1 hp
      rfl
  | requestVote request =>
    exact weight_singleton_le fun p hp => by
      obtain ⟨q, -, rfl⟩ := Option.map_eq_some_iff.1 hp
      rfl
  | appendEntriesResponse id request response =>
    rw [filterMap_notices fun e he hm =>
      nomatch (Core.Step.appendEntriesResponse id request response).sends he hm]
    exact Nat.zero_le _
  | requestVoteResponse response => exact Nat.zero_le _

end

/-- The input of a step tells a timer from a message. -/
theorem kind_of_handled {i : Nat} {inp : Input} (hh : s.handled a = some (i, inp)) :
    isTimer a = inp.isTimer ∧ isReception a = decide (0 < inp.weight) := by
  rcases handled_inv hh with ⟨rfl, rfl⟩ | ⟨rfl, rfl⟩ | ⟨command, rfl, rfl⟩ |
    ⟨k, p, rfl, -, -, -, rfl⟩
  · exact ⟨rfl, rfl⟩
  · exact ⟨rfl, rfl⟩
  · exact ⟨rfl, rfl⟩
  · unfold input
    cases p.body <;> exact ⟨rfl, rfl⟩

/-- What a callback leaves of the network. -/
theorem weight_source {i : Nat} {inp : Input} {client : Option Packet} {net : List Packet}
    (h : Source s i inp client net) : weight net + inp.weight = weight s.net := by
  cases h with
  | packet hk _ _ =>
    rw [(input_weight _).1]
    exact weight_eraseIdx hk
  | _ => rfl

/-- A step without a callback takes one message off the network, or is a restart. -/
theorem net_of_unhandled (hh : s.handled a = none) (hs : step cfg s a = some s') :
    isTimer a = false ∧ ((∃ (k : Nat) (p : Packet), s.net[k]? = some p ∧
      s'.net = s.net.eraseIdx k) ∨ isReception a = false ∧ s'.net = s.net) := by
  cases a with
  | electionTimer i => cases hh
  | broadcastTimer i => cases hh
  | commitCommand i command => cases hh
  | deliver k =>
    refine ⟨rfl, .inl ?_⟩
    simp only [step, stepIn] at hs
    cases hk : s.net[k]? with
    | none => simp [hk] at hs
    | some p =>
      cases ho : s.orphan p with
      | true =>
        simp only [hk, ho, if_true, Option.some.injEq] at hs
        exact ⟨k, p, hk, hs ▸ rfl⟩
      | false => simp [handled, hk, ho] at hh
  | lose k =>
    simp only [step, stepIn, Option.ite_none_right_eq_some, Option.some.injEq] at hs
    obtain ⟨hk, rfl⟩ := hs
    exact ⟨rfl, .inl ⟨k, _, List.getElem?_eq_getElem hk, rfl⟩⟩
  | restart i =>
    simp only [step, stepIn, Option.ite_none_right_eq_some, Option.some.injEq] at hs
    exact ⟨rfl, .inr ⟨rfl, hs.2 ▸ rfl⟩⟩

/-- A callback leaves what it sends in flight, after what it found there. -/
theorem net_of_handled (hok : Ok cfg s) (hs : step cfg s a = some s') {i : Nat} {inp : Input}
    (hh : s.handled a = some (i, inp)) :
    i ∈ cfg.ids ∧ ∃ client net sent, Source s i inp client net ∧ s'.net = net ++ sent ∧
      weight sent ≤
        (inp.weight - 1) + if inp.isTimer then 2 * (s.core i).peers.length else 0 := by
  cases (hok.move hs).1 with
  | callback hi hh' hsrc hstep _ _ _ hnet =>
    rw [hh] at hh'
    cases hh'
    exact ⟨hi, _, _, _, hsrc, hnet, weight_sent hstep⟩
  | drop hn _ _ _ =>
    rw [hh] at hn
    cases hn
  | restart _ hn _ _ _ _ _ =>
    rw [hh] at hn
    cases hn

/-- **What a step adds**: the messages that have left the network, and the weight of those in it,
grow with the timers only. -/
theorem step_weight_le (hok : Ok cfg s) (hs : step cfg s a = some s') :
    weight s'.net + (if isReception a then 1 else 0) ≤
      weight s.net + if isTimer a then 2 * (cfg.ids.length - 1) else 0 := by
  cases hh : s.handled a with
  | none =>
    obtain ⟨htimer, ⟨k, p, hk, hnet⟩ | ⟨hno, hnet⟩⟩ := net_of_unhandled hh hs
    · have hle := weight_eraseIdx hk
      have hpos := (input_weight p).2
      have hone : (if isReception a then 1 else 0) ≤ 1 := by split <;> omega
      rw [hnet, htimer]
      simp only [Bool.false_eq_true, if_false]
      omega
    · rw [hnet, hno, htimer]
      simp
  | some x =>
    obtain ⟨i, inp⟩ := x
    obtain ⟨hi, client, net, sent, hsrc, hnet, hsent⟩ := net_of_handled hok hs hh
    have hleft := weight_source hsrc
    have hpeers : (s.core i).peers.length ≤ cfg.ids.length - 1 := by
      have hids : (s.core i).peers.map (·.nodeId) = cfg.peers i := (hok.nodes i hi).peers
      have hlen := congrArg List.length hids
      rw [List.length_map] at hlen
      exact hlen ▸ length_peers hi
    obtain ⟨htimer, hreception⟩ := kind_of_handled hh
    rw [hnet, weight_append, htimer, hreception]
    simp only [decide_eq_true_eq]
    have hpaid : (if inp.isTimer then 2 * (s.core i).peers.length else 0) ≤
        if inp.isTimer then 2 * (cfg.ids.length - 1) else 0 := by
      split <;> omega
    have htaken : inp.weight - 1 + (if 0 < inp.weight then 1 else 0) = inp.weight := by
      split <;> omega
    omega

theorem eq_nil_of_weight : ∀ {net : List Packet}, weight net = 0 → net = []
  | [], _ => rfl
  | p :: net, h => by
    have hpos := (input_weight p).2
    simp only [weight] at h
    omega

/-- Only timers and requests make a node send. -/
theorem net_subset (hok : Ok cfg s) (hs : step cfg s a = some s') (htimer : isTimer a = false)
    (hanswer : ∀ i inp, s.handled a = some (i, inp) → inp.weight ≤ 1) :
    ∀ p ∈ s'.net, p ∈ s.net := by
  cases hh : s.handled a with
  | none =>
    obtain ⟨-, ⟨k, p, -, hnet⟩ | ⟨-, hnet⟩⟩ := net_of_unhandled hh hs
    · exact hnet ▸ fun q hq => List.mem_of_mem_eraseIdx hq
    · exact hnet ▸ fun q hq => hq
  | some x =>
    obtain ⟨i, inp⟩ := x
    obtain ⟨hi, client, net, sent, hsrc, hnet, hsent⟩ := net_of_handled hok hs hh
    have hle := hanswer i inp hh
    rw [(kind_of_handled hh).1] at htimer
    simp only [htimer, Bool.false_eq_true, if_false] at hsent
    have hnil : sent = [] := eq_nil_of_weight (by omega)
    rw [hnet, hnil, List.append_nil]
    exact (hok.input hsrc).2.2.1

/-- The number of times a timer has fired. -/
def timers (as : List Action) : Nat := as.countP isTimer

/-- The number of messages that have been delivered or lost. -/
def receptions (as : List Action) : Nat := as.countP isReception

end Cluster

/-- **Messages are paid for by timers.** In every reachable state of a cluster of `N` nodes, the
messages that have been delivered or lost, and the requests in flight counted twice, are together at
most `2 (N - 1)` for every time a timer has fired. A step that is no timer and delivers no request
sends nothing: what is in flight after it was before. -/
theorem traffic_bounded {cfg : Config} {h : List (Cluster × List Action)}
    (hr : RecordedRun cfg h) :
    ∀ s ∈ h, Cluster.weight s.1.net + Cluster.receptions s.2 ≤
        2 * (cfg.ids.length - 1) * Cluster.timers s.2 ∧
      ∀ a s', Cluster.step cfg s.1 a = some s' → Cluster.isTimer a = false →
        (∀ k p, a = .deliver k → s.1.net[k]? = some p → p.body.weight = 1) →
          ∀ p ∈ s'.net, p ∈ s.1.net := by
  intro s hs
  constructor
  · revert s
    refine hr.forall_record (R := fun (s : Cluster) (as : List Action) =>
      Cluster.weight s.net + Cluster.receptions as ≤ 2 * (cfg.ids.length - 1) * Cluster.timers as)
      (Nat.zero_le _) fun s a s' as hs hstep hle => ?_
    have hadd := Cluster.step_weight_le (hr.run.ok s hs) hstep
    simp only [Cluster.receptions, Cluster.timers, List.countP_cons] at hle ⊢
    rw [Nat.mul_add, mul_ite, Nat.mul_one, Nat.mul_zero]
    omega
  · intro a s' hstep htimer hanswer
    refine Cluster.net_subset (hr.run.ok s.1 (List.mem_map_of_mem hs)) hstep htimer
      fun i inp hh => ?_
    rcases Cluster.handled_inv hh with ⟨-, rfl⟩ | ⟨-, rfl⟩ | ⟨command, -, rfl⟩ |
      ⟨k, p, ha, hk, -, -, rfl⟩
    · exact Nat.zero_le _
    · exact Nat.zero_le _
    · exact Nat.zero_le _
    · rw [(Cluster.input_weight p).1, hanswer k p ha hk]

/-- Three nodes: the messages of an election, one of them lost, and of a round of heartbeats, one of
them not answered yet. -/
theorem traffic_bounded_heartbeats :
    ∃ h, RecordedRun (.range 3 (by decide)) h ∧
      ∃ s ∈ h, (s.1.nodes 0).isActivated = true ∧ Cluster.receptions s.2 = 5 ∧
        Cluster.weight s.1.net = 3 ∧ Cluster.timers s.2 = 2 ∧
        Cluster.weight s.1.net + Cluster.receptions s.2 ≤ 4 * Cluster.timers s.2 := by
  obtain ⟨h, hr, hc⟩ := Lib.System.exists_run
    (S := (Cluster.system (.range 3 (by decide))).record) (fun _ _ => True)
    [.electionTimer 0, .deliver 0, .deliver 0, .deliver 0, .deliver 0, .broadcastTimer 0,
      .deliver 0]
    (fun h => h.any fun s => decide ((s.1.nodes 0).isActivated = true ∧
      Cluster.receptions s.2 = 5 ∧ Cluster.weight s.1.net = 3 ∧ Cluster.timers s.2 = 2))
    (by decide +kernel)
  obtain ⟨s, hs, hc⟩ := List.any_eq_true.1 hc
  obtain ⟨h0, h1, h2, h3⟩ := of_decide_eq_true hc
  exact ⟨h, hr, s, hs, h0, h1, h2, h3, (traffic_bounded hr s hs).1⟩

end Foros
