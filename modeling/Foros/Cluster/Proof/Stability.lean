import Foros.Cluster.Proof.Terms
import Foros.Lib.Reach

/-!
# A leader stays

A request in flight was sent by a leader whose term covers it (`sentByLeader`), so a leader of the
highest term is never told of another leader of its own term. As long as election timers fire only
at nodes that have heard of a leader since they last fired, and the leader is not restarted, it
leads on, and no term grows past its own (`leader_stable`): what the heartbeats are for.
-/

namespace Foros

namespace Node

/-- A node that has heard of a leader starts no election. -/
theorem run_heard {n : Node} (hr : n.broadcastReceived = true) :
    (run .plain .electionTimer n).core = n.core := by
  simp only [run, dispatch]
  split
  · simp only [onElectionTimer, hr, if_true]
    rfl
  · rfl

end Node

namespace Core

variable {c c' : Core} {input : Input} {es : List Effect}

/-- A leader steps down for a newer term, or for a leader of its own. -/
theorem Step.stays (h : c.Step input c' es) (hl : c.state = .leader) (hterm : input.term ≤ c.term)
    (hreq : ∀ request, input = .appendEntries request → request.term < c.term) :
    c'.state = .leader ∧ c'.term = c.term := by
  cases h with
  | idleElection => exact ⟨hl, rfl⟩
  | campaign hs => rcases hs with hs | hs <;> rw [hl] at hs <;> cases hs
  | idleBroadcast => exact ⟨hl, rfl⟩
  | broadcast _ => exact ⟨hl, rfl⟩
  | commitCommand command promise =>
    obtain ⟨logs, p, he⟩ := c.commitCommand_eq command promise
    rw [he]
    exact ⟨hl, rfl⟩
  | appendEntries request =>
    have hlt := hreq request rfl
    rcases c.appendEntries_cases request with he | ⟨-, he⟩ | ⟨hge, he⟩
    · rw [he]
      exact ⟨hl, rfl⟩
    · rw [he]
      exact ⟨hl, rfl⟩
    · omega
  | requestVote request =>
    have hobs : c.observe request.term = c := observe_of_le hterm
    rcases c.requestVote_cases request with he | he | ⟨-, -, he⟩ <;> rw [he]
    · exact ⟨hl, rfl⟩
    · rw [hobs]
      exact ⟨hl, rfl⟩
    · rw [hobs]
      exact ⟨hl, rfl⟩
  | appendEntriesResponse id request response =>
    obtain ⟨logs, p, he⟩ := c.appendEntriesResponse_eq id request response
    have hobs : (c.updatePeer id request response).observe response.term =
        c.updatePeer id request response := observe_of_le hterm
    rw [he, hobs]
    exact ⟨hl, rfl⟩
  | requestVoteResponse response =>
    rcases c.requestVoteResponse_cases response with he | he | ⟨-, he⟩ <;> rw [he]
    · exact ⟨hl, rfl⟩
    · have hobs : c.observe response.term = c := observe_of_le hterm
      rw [hobs]
      exact ⟨hl, rfl⟩
    · refine ⟨?_, elect_term _⟩
      unfold elect
      split
      · exact hl
      · simp [hl]

end Core

namespace Cluster

variable {cfg : Config} {s s' : Cluster} {a : Action} {h : List Cluster}

/-! ## Requests come from leaders -/

/-- Node `i` led a term that covers the request. -/
def SentByLeader (h : List Cluster) (i : Nat) (request : AppendEntriesRequest) : Prop :=
  ∃ t ∈ h, (t.core i).state = .leader ∧ request.term ≤ (t.core i).term

theorem sentByLeader {ok : Cluster → Action → Prop} (hr : ClusterRun cfg ok (s :: h)) :
    ∀ p ∈ s.net, ∀ request, p.body = .appendEntries request →
      SentByLeader (s :: h) p.src request := by
  refine hr.history (P := fun
    | [] => True
    | s :: h => ∀ p ∈ s.net, ∀ request, p.body = .appendEntries request →
        SentByLeader (s :: h) p.src request) nofun fun s a s' h hr ih _ hs p hp request hb => ?_
  have hok := ClusterRun.ok hr s (.head _)
  cases (hok.move hs).1.packet hok hp with
  | old hp =>
    obtain ⟨t, ht, hrest⟩ := ih p hp request hb
    exact ⟨t, .tail _ ht, hrest⟩
  | @sent i inp client net hi _ hsend =>
    generalize s'.core i = c' at hsend
    cases hsend with
    | appendEntries hl _ =>
      cases hb
      exact ⟨s, .tail _ (.head _), hl, (hok.nodes i hi).core.appendRequest_term_le _⟩
    | _ => cases hb

/-! ## Stability -/

/-- A step that leaves the leader alone: it is not restarted, and no election timer fires at
another node that has not heard of a leader since. -/
def Calm (leader : Nat) (s : Cluster) (a : Action) : Prop :=
  a ≠ .restart leader ∧ ∀ i, a = .electionTimer i → i ≠ leader →
    (s.nodes i).broadcastReceived = true

instance (leader : Nat) (s : Cluster) (a : Action) : Decidable (Calm leader s a) :=
  match a with
  | .electionTimer i =>
    decidable_of_iff (i ≠ leader → (s.nodes i).broadcastReceived = true)
      ⟨fun h => ⟨nofun, fun _ he => by cases he; exact h⟩, fun h => h.2 i rfl⟩
  | .restart i =>
    decidable_of_iff (i ≠ leader) ⟨fun h => ⟨by simpa using h, nofun⟩, fun h he => h.1 (he ▸ rfl)⟩
  | .broadcastTimer _ => isTrue ⟨nofun, nofun⟩
  | .commitCommand _ _ => isTrue ⟨nofun, nofun⟩
  | .deliver _ => isTrue ⟨nofun, nofun⟩
  | .lose _ => isTrue ⟨nofun, nofun⟩

/-- The node leads the term `T`, and no member has a newer one. -/
structure Reigns (cfg : Config) (leader T : Nat) (s : Cluster) : Prop where
  leads : (s.core leader).state = .leader
  term : (s.core leader).term = T
  terms : TermsLe cfg s T

/-- A node other than the leader. -/
theorem Reigns.termsLe_step {leader T : Nat} (h : Reigns cfg leader T s) (hok : Ok cfg s)
    (ha : Calm leader s a) (hs : step cfg s a = some s') {j : Nat} (hj : j ∈ cfg.ids)
    (hne : j ≠ leader) : (s'.core j).term ≤ T := by
  have hold := h.terms j hj
  cases (hok.move hs).1.node j with
  | same he => exact core_eq he ▸ hold
  | @callback inp client net es hh hsrc hstep _ =>
    by_cases hinp : inp = .electionTimer
    · -- the timer fires at a node that has heard of a leader
      subst hinp
      have heard := ha.2 j (electionTimer_of_handled hh) hne
      rcases node_of_step hs j with he | ⟨inp, hh', he⟩ | ⟨rfl, -⟩
      · exact core_eq he ▸ hold
      · obtain rfl : Input.electionTimer = inp := by
          rw [hh] at hh'
          cases hh'
          rfl
        unfold core
        rw [he, Node.run_heard heard]
        exact hold
      · cases hh
    · have hmax := hstep.term_le_max
      rw [if_neg hinp] at hmax
      refine Nat.le_trans hmax (Nat.max_le.2 ⟨hold, ?_⟩)
      rcases hok.input_term hsrc with h0 | ⟨k, hk, hle⟩
      · rw [h0]
        exact Nat.zero_le _
      · exact Nat.le_trans hle (h.terms k hk)
  | restart _ hcore _ => exact hcore ▸ hold

/-- A request that reaches the leader is of an older term. -/
theorem Reigns.request_lt {leader T : Nat} (hreign : Reigns cfg leader T s)
    (hr : ClusterRun cfg (Avoids Node.Wraps) (s :: h)) (hl : leader ∈ cfg.ids) {p : Packet}
    (hp : p ∈ s.net) (hd : p.dst = leader) {request : AppendEntriesRequest}
    (hb : p.body = .appendEntries request) : request.term < T := by
  obtain ⟨t, ht, hlead, hle⟩ := sentByLeader hr p hp request hb
  have hpacket := (ClusterRun.ok hr s (.head _)).packets p hp
  have hbound := Nat.le_trans (term_le_newest hr ht hpacket.src) (hreign.terms p.src hpacket.src)
  by_contra hge
  -- the sender led the term as well, so it is the leader
  have heq : p.src = leader := leaders_eq hr ht (.head _) hpacket.src hl hlead hreign.leads
    (by rw [hreign.term]; omega)
  exact hpacket.ne (heq.trans hd.symm)

/-- **A calm step leaves the leader in office.** -/
theorem Reigns.step {leader T : Nat} (hreign : Reigns cfg leader T s)
    (hr : ClusterRun cfg (Avoids Node.Wraps) (s :: h)) (hl : leader ∈ cfg.ids)
    (ha : Calm leader s a) (hs : Cluster.step cfg s a = some s') : Reigns cfg leader T s' := by
  have hok := ClusterRun.ok hr s (.head _)
  have hstays : (s'.core leader).state = .leader ∧ (s'.core leader).term = T := by
    cases (hok.move hs).1.node leader with
    | same he => exact core_eq he ▸ ⟨hreign.leads, hreign.term⟩
    | @callback inp client net es hh hsrc hstep _ =>
      have hterm : inp.term ≤ (s.core leader).term := by
        rw [hreign.term]
        rcases hok.input_term hsrc with h0 | ⟨k, hk, hle⟩
        · rw [h0]
          exact Nat.zero_le _
        · exact Nat.le_trans hle (hreign.terms k hk)
      obtain ⟨h1, h2⟩ := hstep.stays hreign.leads hterm fun request he => by
        subst he
        obtain ⟨p, hb, hof⟩ := hsrc.appendEntries
        rw [hreign.term]
        exact hreign.request_lt hr hl hof.mem hof.dst hb
      exact ⟨h1, h2.trans hreign.term⟩
    | restart hh hcore _ =>
      rcases node_of_step hs leader with he | ⟨inp, hh', -⟩ | ⟨he, -⟩
      · exact core_eq he ▸ ⟨hreign.leads, hreign.term⟩
      · rw [hh] at hh'
        cases hh'
      · exact absurd he ha.1
  refine ⟨hstays.1, hstays.2, fun j hj => ?_⟩
  by_cases hne : j = leader
  · subst hne
    exact Nat.le_of_eq hstays.2
  · exact hreign.termsLe_step hok ha hs hj hne

theorem Reigns.run {leader T : Nat} (hreign : Reigns cfg leader T s) (hT : T < 2 ^ 64 - 1)
    (hr : ClusterRun cfg (fun _ _ => True) (s :: h)) (hl : leader ∈ cfg.ids) {k : List Cluster}
    (hk : ((system cfg).startAt s).Run (Calm leader) k) : ∀ t ∈ k, Reigns cfg leader T t := by
  refine hk.history (P := fun k => ∀ t ∈ k, Reigns cfg leader T t)
    (fun t ht => List.mem_singleton.1 ht ▸ hreign) fun t a t' k hk ih ha hs u hu => ?_
  rcases List.mem_cons.1 hu with rfl | hu
  swap
  · exact ih u hu
  have hfull := hr.append hk
  -- no term of the whole run is the last one
  have hterm : ∀ u ∈ t :: k ++ h, ∀ i ∈ cfg.ids, (u.nodes i).store.currentTerm < 2 ^ 64 - 1 := by
    intro u hu i hi
    have hle : (u.core i).term ≤ T := by
      rcases List.mem_append.1 hu with hu | hu
      · exact (ih u hu).terms i hi
      · exact Nat.le_trans (term_le_newest hr (.tail _ hu) hi) (hreign.terms i hi)
    exact Nat.lt_of_le_of_lt hle hT
  exact (ih t (.head _)).step ((avoids_wraps hfull hterm).mono fun _ _ hok => hok.2) hl ha hs

end Cluster

/-- **A leader stays.** From a reachable state in which an active node has the highest term, which
is not the last one, that node stays active in its term and no term grows past it, as long as it is
not restarted and the election timers of the others fire only after they have heard of a leader. -/
theorem leader_stable {cfg : Config} {s : Cluster} {h : List Cluster}
    (hr : ClusterRun cfg (fun _ _ => True) (s :: h)) {leader : Nat} (hl : leader ∈ cfg.ids)
    (hactive : (s.nodes leader).isActivated = true)
    (hmax : ∀ i ∈ cfg.ids, (s.nodes i).store.currentTerm ≤ (s.nodes leader).store.currentTerm)
    (hroom : (s.nodes leader).store.currentTerm < 2 ^ 64 - 1) {k : List Cluster}
    (hk : ((Cluster.system cfg).startAt s).Run (Cluster.Calm leader) k) :
    ∀ t ∈ k, (t.nodes leader).isActivated = true ∧
      (t.nodes leader).store.currentTerm = (s.nodes leader).store.currentTerm ∧
      ∀ i ∈ cfg.ids, (t.nodes i).store.currentTerm ≤ (s.nodes leader).store.currentTerm := by
  have hleads := ((ClusterRun.ok hr s (.head _)).nodes leader hl).aligned.isActivated.1 hactive
  have hreign := Cluster.Reigns.run ⟨hleads, rfl, hmax⟩ hroom hr hl hk
  intro t ht
  obtain ⟨h1, h2, h3⟩ := hreign t ht
  have hok : Cluster.Ok cfg t := ClusterRun.ok (hr.append hk) t (List.mem_append_left _ ht)
  exact ⟨(hok.nodes leader hl).aligned.isActivated.2 h1, h2, h3⟩

/-- Three nodes: node 2 has a lower term and its request for votes is stale, the others hear of
node 0 and their timers fire. -/
theorem leader_stable_heartbeat :
    ∃ s h k, ClusterRun (.range 3 (by decide)) (fun _ _ => True) (s :: h) ∧
      ((Cluster.system (.range 3 (by decide))).startAt s).Run (Cluster.Calm 0) k ∧
      (∃ t ∈ k, (t.nodes 1).broadcastReceived = true) ∧
      ∀ t ∈ k, (t.nodes 0).isActivated = true ∧
        (t.nodes 0).store.currentTerm = (s.nodes 0).store.currentTerm ∧
        ∀ i ∈ [0, 1, 2], (t.nodes i).store.currentTerm ≤ (s.nodes 0).store.currentTerm := by
  obtain ⟨s, h, k, hr, hk, hc⟩ := Lib.System.exists_continuation
    (S := Cluster.system (.range 3 (by decide))) (fun _ _ => True) (Cluster.Calm 0)
    [.electionTimer 2, .electionTimer 0, .electionTimer 0, .deliver 4, .deliver 5]
    [.broadcastTimer 0, .deliver 5, .electionTimer 1, .deliver 1, .electionTimer 0, .restart 2]
    (fun s k => (s.nodes 0).isActivated && decide ((s.nodes 0).store.currentTerm < 2 ^ 64 - 1) &&
      ([0, 1, 2].all fun i => (s.nodes i).store.currentTerm ≤ (s.nodes 0).store.currentTerm) &&
      k.any fun t => (t.nodes 1).broadcastReceived) (by decide +kernel)
  simp only [Bool.and_eq_true, List.all_eq_true, List.any_eq_true, decide_eq_true_eq] at hc
  obtain ⟨⟨⟨hactive, hroom⟩, hmax⟩, hheard⟩ := hc
  exact ⟨s, h, k, hr, hk, hheard, leader_stable hr (by decide) hactive hmax hroom hk⟩

end Foros
