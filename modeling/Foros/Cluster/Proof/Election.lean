import Foros.Cluster.Proof.Step
import Foros.Lib.Quorum
import Foros.Raft.Proof.Votes

/-!
# Elections

`Granted h T c v`: at some moment of the history node `v` had given its vote of the term `T` to
`c`. The invariant (`Tally`) bounds, for every candidate and term, the grants in flight plus the
votes counted by the number of such voters; a leader has a majority of them. Two majorities share
a voter, and a vote stands within its term, so a term has one leader (`leader_unique`).
-/

namespace Foros

/-- The election timer fires in the last term: `increase_term` wraps, and the vote of the term is
given again. -/
def Node.Wraps (n : Node) : Input → Prop
  | .electionTimer => n.store.currentTerm = 2 ^ 64 - 1
  | _ => False

instance (n : Node) (input : Input) : Decidable (n.Wraps input) := by
  refine Input.casesOn input ?_ ?_ ?_ ?_ ?_ ?_ ?_ <;> intros <;> dsimp only [Node.Wraps] <;>
    infer_instance

namespace Cluster

variable {cfg : Config} {s s' : Cluster} {a : Action} {h : List Cluster}

/-! ## Votes stand -/

theorem Move.voteLe (hok : Ok cfg s) (hm : Move cfg s a s') (hw : Avoids Node.Wraps s a) :
    ∀ i ∈ cfg.ids, Core.VoteLe (s.core i) (s'.core i) := by
  intro j hj
  cases hm with
  | @callback i inp client net es hi hh _ hstep _ hothers _ _ =>
    by_cases hji : j = i
    · subst hji
      apply hstep.voteLe
      intro he
      have hne : (s.core j).term ≠ 2 ^ 64 - 1 := fun ht => hw j inp hh (by rw [he]; exact ht)
      have hlt : (s.core j).term < 2 ^ 64 := (hok.nodes j hj).ok.store.term_lt
      omega
    · unfold core
      rw [hothers j hji]
      exact .refl _
  | drop _ hn _ _ =>
    unfold core
    rw [hn]
    exact .refl _
  | @restart i hi _ hcore _ hothers _ _ =>
    by_cases hji : j = i
    · subst hji
      rw [hcore]
      exact .of_eq rfl rfl rfl (Core.rank_le _)
    · unfold core
      rw [hothers j hji]
      exact .refl _

/-- **Votes stand, terms grow** along a run without wrap-around. -/
theorem voteLe_pairwise (hr : ClusterRun cfg (Avoids Node.Wraps) h) :
    h.Pairwise fun newer older => ∀ i ∈ cfg.ids, Core.VoteLe (older.core i) (newer.core i) :=
  hr.pairwise (fun _ _ _ h1 h2 i hi => (h1 i hi).trans (h2 i hi)) fun _ _ _ _ hr ha hs =>
    have hok := ClusterRun.ok hr _ (.head _)
    (hok.move hs).1.voteLe hok ha

theorem voteLe_newest (hr : ClusterRun cfg (Avoids Node.Wraps) (s :: h)) {t : Cluster}
    (ht : t ∈ s :: h) {i : Nat} (hi : i ∈ cfg.ids) : Core.VoteLe (t.core i) (s.core i) :=
  Lib.System.le_newest (voteLe_pairwise hr) (fun _ _ _ => .refl _) ht i hi

/-! ## Grants -/

/-- Node `v` has voted for `c` in the term `T`. -/
def Granted (h : List Cluster) (T c v : Nat) : Prop :=
  ∃ s ∈ h, (s.core v).term = T ∧ (s.core v).voted = true ∧ (s.core v).votedFor = c

theorem Granted.cons {T c v : Nat} (hg : Granted h T c v) : Granted (s :: h) T c v := by
  obtain ⟨t, ht, hv⟩ := hg
  exact ⟨t, .tail _ ht, hv⟩

/-- A grant in flight to `c`. -/
def isGrant (T c : Nat) (p : Packet) : Bool :=
  p.dst = c ∧ p.body = .requestVoteResponse ⟨T, true⟩

open Classical in
/-- The number of voters of `c` in the term `T`. -/
noncomputable def votes (cfg : Config) (h : List Cluster) (T c : Nat) : Nat :=
  cfg.ids.countP fun v => decide (Granted h T c v)

theorem votes_cons (T c : Nat) : votes cfg h T c ≤ votes cfg (s :: h) T c :=
  List.countP_mono_left fun v _ hv => by
    simp only [decide_eq_true_eq] at hv ⊢
    exact hv.cons

/-- A new voter. -/
theorem votes_add_one {T c v : Nat} (hv : v ∈ cfg.ids) (hold : ¬ Granted h T c v)
    (hnew : Granted (s :: h) T c v) : votes cfg h T c + 1 ≤ votes cfg (s :: h) T c :=
  Lib.countP_add_one_le hv (fun v _ hv => by
    simp only [decide_eq_true_eq] at hv ⊢
    exact hv.cons) (by simpa using hold) (by simpa using hnew)

/-- Only the answer to a request for a vote is a grant. -/
theorem not_isGrant {c c' : Core} {inp : Input} {es : List Effect} {i boot T d : Nat}
    {client : Option Packet} (hs : c.Step inp c' es) (hne : ∀ request, inp ≠ .requestVote request) :
    (es.filterMap (packet i boot client)).countP (isGrant T d) = 0 := by
  rw [List.countP_eq_zero]
  intro p hp hg
  have hbody : p.body = .requestVoteResponse ⟨T, true⟩ := by
    simp only [isGrant, decide_eq_true_eq] at hg
    exact hg.2
  cases sends_of_step hs hp with
  | requestVoteResponse _ => exact hne _ rfl
  | _ => cases hbody

/-- A grant that leaves: the vote was free, and is given now. -/
theorem grant_of_step (c : Core) (i boot T d : Nat) (client : Option Packet)
    (request : RequestVoteRequest) :
    (([Effect.replyRequestVote request (c.requestVote request).1]).filterMap
        (packet i boot client)).countP (isGrant T d) = 0 ∨
    ((([Effect.replyRequestVote request (c.requestVote request).1]).filterMap
        (packet i boot client)).countP (isGrant T d) = 1 ∧ (∃ p, client = some p ∧ p.src = d) ∧
      (c.requestVote request).2.term = T ∧ (c.requestVote request).2.voted = true ∧
      (c.requestVote request).2.votedFor = request.candidateId ∧
      (c.term = T → c.voted = false)) := by
  cases client with
  | none => exact .inl rfl
  | some p =>
    have hp : ([Effect.replyRequestVote request (c.requestVote request).1]).filterMap
        (packet i boot (some p)) =
        [⟨i, p.src, p.boot, .requestVoteResponse (c.requestVote request).1⟩] := rfl
    rw [hp, List.countP_singleton]
    cases hg : isGrant T d ⟨i, p.src, p.boot, .requestVoteResponse (c.requestVote request).1⟩ with
    | false => exact .inl rfl
    | true =>
      simp only [isGrant, decide_eq_true_eq, Message.requestVoteResponse.injEq] at hg
      obtain ⟨hd, hresp⟩ := hg
      refine .inr ⟨rfl, ⟨p, rfl, hd⟩, ?_⟩
      rcases c.requestVote_cases request with he | he | ⟨-, ⟨-, hfree, -⟩, he⟩ <;>
        rw [he] at hresp ⊢
      · cases hresp
      · cases hresp
      · have ht : (c.observe request.term).term = T := congrArg RequestVoteResponse.term hresp
        refine ⟨ht, rfl, rfl, fun hc => ?_⟩
        have hle : request.term ≤ c.term := by
          rw [Core.observe_term] at ht
          omega
        rwa [Core.observe_of_le hle] at hfree

/-! ## The tally -/

/-- The invariant of a history that ends in `s`. -/
structure Tally (cfg : Config) (s : Cluster) (h : List Cluster) : Prop where
  count : ∀ c ∈ cfg.ids, ∀ T, s.net.countP (isGrant T c) + (s.core c).received T ≤
    votes cfg (s :: h) T c
  led : ∀ t ∈ s :: h, ∀ c ∈ cfg.ids, (t.core c).state = .leader →
    cfg.ids.length / 2 + 1 ≤ votes cfg (s :: h) (t.core c).term c

theorem Tally.init (cfg : Config) : Tally cfg (Cluster.init cfg) [] := by
  refine ⟨fun c hc T => ?_, fun t ht c hc hl => ?_⟩
  · have hz : ((Cluster.init cfg).core c).received T = 0 := by
      unfold Core.received
      rw [init_core]
      simp
    rw [hz]
    exact Nat.zero_le _
  · rw [List.mem_singleton.1 ht, init_core] at hl
    cases hl

/-- The packet a callback consumed does not count any more. -/
theorem Source.countP_le {i : Nat} {inp : Input} {client : Option Packet} {net : List Packet}
    (hsrc : Source s i inp client net) (q : Packet → Bool) : net.countP q ≤ s.net.countP q := by
  cases hsrc with
  | packet _ _ _ => exact (List.eraseIdx_sublist ..).countP_le
  | _ => exact Nat.le_refl _

/-- A grant that leaves goes to the candidate that asked, and is a new vote. -/
theorem votes_grant (hr : ClusterRun cfg (Avoids Node.Wraps) (s :: h)) {i : Nat} {inp : Input}
    {client : Option Packet} {net : List Packet} {es : List Effect} (hi : i ∈ cfg.ids)
    (hsrc : Source s i inp client net) (hstep : (s.core i).Step inp (s'.core i) es) (T c : Nat) :
    (es.filterMap (packet i (s.boots i) client)).countP (isGrant T c) = 0 ∨
    ((es.filterMap (packet i (s.boots i) client)).countP (isGrant T c) = 1 ∧ c ≠ i ∧
      (∃ request, inp = .requestVote request) ∧
      votes cfg (s :: h) T c + 1 ≤ votes cfg (s' :: s :: h) T c) := by
  by_cases hreq : ∃ request, inp = .requestVote request
  · obtain ⟨request, rfl⟩ := hreq
    obtain ⟨p, hb, hof⟩ := hsrc.requestVote
    obtain ⟨rfl⟩ := hof.client
    have hp := (ClusterRun.ok hr s (.head _)).packets p hof.mem
    have hmsg := hp.body
    rw [hb] at hmsg
    generalize hc' : s'.core i = c' at hstep
    cases hstep with
    | requestVote request =>
      rcases grant_of_step (s.core i) i (s.boots i) T c (some p) request with
        hz | ⟨h1, ⟨q, hq, hqc⟩, hterm, hv, hf, hfree⟩
      · exact .inl hz
      · cases hq
        refine .inr ⟨h1, ?_, ⟨request, rfl⟩, ?_⟩
        · rw [← hqc, ← hof.dst]
          exact hp.ne
        · refine votes_add_one hi ?_ ⟨s', .head _, ?_⟩
          · -- an earlier vote of this term would still stand
            rintro ⟨t, ht, htT, htv, -⟩
            have hle := voteLe_newest hr ht hi
            have hge := (Core.Step.requestVote (c := s.core i) request).term_le
            have heq : (s.core i).term = T := by
              have := hle.term_le
              omega
            have hvoted := (hle.vote (by omega) htv).1
            rw [hfree heq] at hvoted
            cases hvoted
          · rw [hc']
            exact ⟨hterm, hv, hf.trans (hmsg.1.trans hqc)⟩
  · exact .inl (not_isGrant hstep fun request he => hreq ⟨request, he⟩)

theorem Tally.count_callback (hr : ClusterRun cfg (Avoids Node.Wraps) (s :: h))
    (ht : Tally cfg s h) {i : Nat} {inp : Input} {client : Option Packet} {net : List Packet}
    {es : List Effect} (hi : i ∈ cfg.ids) (hsrc : Source s i inp client net)
    (hw : inp = .electionTimer → (s.core i).term < 2 ^ 64 - 1)
    (hstep : (s.core i).Step inp (s'.core i) es) (hothers : ∀ j, j ≠ i → s'.core j = s.core j)
    {c : Nat} (hc : c ∈ cfg.ids) (T : Nat) :
    (net ++ es.filterMap (packet i (s.boots i) client)).countP (isGrant T c) +
      (s'.core c).received T ≤ votes cfg (s' :: s :: h) T c := by
  have hold := ht.count c hc T
  have hnet := hsrc.countP_le (isGrant T c)
  have hmono : votes cfg (s :: h) T c ≤ votes cfg (s' :: s :: h) T c := votes_cons T c
  rw [List.countP_append]
  by_cases hci : c = i
  · subst hci
    have hzero : (es.filterMap (packet c (s.boots c) client)).countP (isGrant T c) = 0 := by
      rcases votes_grant hr hi hsrc hstep T c with hz | ⟨-, hne, -⟩
      · exact hz
      · exact absurd rfl hne
    rw [hzero]
    rcases hstep.received hw T with hle | ⟨rfl, hle⟩ | ⟨hlt, hterm, hv, hf, hle⟩
    · omega
    · -- the grant that is counted was in flight
      obtain ⟨p, hb, hof⟩ := hsrc.requestVoteResponse
      obtain ⟨k, hk, rfl⟩ := hof.net
      have hg : isGrant T c p = true := by
        simp only [isGrant, decide_eq_true_eq]
        exact ⟨hof.dst, hb⟩
      have := Lib.countP_eraseIdx hk hg
      omega
    · -- the node's own vote of a new term
      have hnone : (s.core c).received T = 0 := if_neg (by omega)
      have hnew : votes cfg (s :: h) T c + 1 ≤ votes cfg (s' :: s :: h) T c := by
        refine votes_add_one hi ?_ ⟨s', .head _, hterm, hv, ?_⟩
        · rintro ⟨t, ht, htT, -⟩
          have := (voteLe_newest hr ht hi).term_le
          omega
        · exact hf.trans ((ClusterRun.ok hr s (.head _)).nodes c hc).nodeId
      omega
  · rw [hothers c hci]
    rcases votes_grant hr hi hsrc hstep T c with hz | ⟨h1, -, -, hnew⟩ <;> omega

/-- A majority stays one. -/
theorem Tally.led_cons (ht : Tally cfg s h)
    (hnew : ∀ c ∈ cfg.ids, (s'.core c).state = .leader →
      ((s.core c).state = .leader ∧ (s'.core c).term = (s.core c).term) ∨
      cfg.ids.length / 2 + 1 ≤ (s'.core c).received (s'.core c).term)
    (hcount : ∀ c ∈ cfg.ids, ∀ T, s'.net.countP (isGrant T c) + (s'.core c).received T ≤
      votes cfg (s' :: s :: h) T c) : Tally cfg s' (s :: h) := by
  refine ⟨hcount, fun t hmem c hc hl => ?_⟩
  rcases List.mem_cons.1 hmem with rfl | hold
  · rcases hnew c hc hl with ⟨hl', hterm⟩ | hmaj
    · rw [hterm]
      exact Nat.le_trans (ht.led s (.head _) c hc hl') (votes_cons _ c)
    · have := hcount c hc (t.core c).term
      omega
  · exact Nat.le_trans (ht.led t hold c hc hl) (votes_cons _ c)

/-- **Every leader of a run has a majority of voters.** -/
theorem Tally.of_run (hr : ClusterRun cfg (Avoids Node.Wraps) (s :: h)) : Tally cfg s h := by
  refine hr.history (P := fun | [] => True | s :: h => Tally cfg s h) (Tally.init cfg)
    fun s a s' h hr ht ha hs => ?_
  have hok := ClusterRun.ok hr s (.head _)
  cases (hok.move hs).1 with
  | @callback i inp client net es hi hh hsrc hstep _ hothers _ hnet =>
    have hcore : ∀ j, j ≠ i → s'.core j = s.core j := fun j hj => by
      unfold core
      rw [hothers j hj]
    refine ht.led_cons (fun c hc hl => ?_) fun c hc T => ?_
    · by_cases hci : c = i
      · subst hci
        rw [← (hok.nodes c hc).majority]
        exact (hstep.leader hl).imp_right And.right
      · rw [hcore c hci] at hl ⊢
        exact .inl ⟨hl, rfl⟩
    · rw [hnet]
      refine ht.count_callback hr hi hsrc (fun he => ?_) hstep hcore hc T
      have hne : (s.core i).term ≠ 2 ^ 64 - 1 := fun ht => ha i inp hh (by rw [he]; exact ht)
      have hlt : (s.core i).term < 2 ^ 64 := (hok.nodes i hi).ok.store.term_lt
      omega
  | @drop k _ hn _ hnet =>
    have hcore : ∀ j, s'.core j = s.core j := fun j => by
      unfold core
      rw [hn]
    refine ht.led_cons (fun c hc hl => ?_) fun c hc T => ?_
    · rw [hcore c] at hl ⊢
      exact .inl ⟨hl, rfl⟩
    · have hle := (s.net.eraseIdx_sublist k).countP_le (p := isGrant T c)
      have hmono : votes cfg (s :: h) T c ≤ votes cfg (s' :: s :: h) T c := votes_cons T c
      have := ht.count c hc T
      rw [hcore c, hnet]
      omega
  | @restart i hi _ hnow _ hothers _ hnet =>
    have hcore : ∀ j, j ≠ i → s'.core j = s.core j := fun j hj => by
      unfold core
      rw [hothers j hj]
    refine ht.led_cons (fun c hc hl => ?_) fun c hc T => ?_
    · by_cases hci : c = i
      · subst hci
        rw [hnow] at hl
        cases hl
      · rw [hcore c hci] at hl ⊢
        exact .inl ⟨hl, rfl⟩
    · have hmono : votes cfg (s :: h) T c ≤ votes cfg (s' :: s :: h) T c := votes_cons T c
      have hold := ht.count c hc T
      rw [hnet]
      by_cases hci : c = i
      · subst hci
        have hz : (s'.core c).received T = 0 := by
          rw [hnow]
          unfold Core.received
          split <;> rfl
        omega
      · rw [hcore c hci]
        omega

/-- A voter of a term has one candidate. -/
theorem Granted.unique (hr : ClusterRun cfg (Avoids Node.Wraps) h) {T c c' v : Nat}
    (hv : v ∈ cfg.ids) (hg : Granted h T c v) (hg' : Granted h T c' v) : c = c' := by
  obtain ⟨s, hs, hT, hvote, rfl⟩ := hg
  obtain ⟨s', hs', hT', hvote', rfl⟩ := hg'
  rcases Lib.System.comparable (voteLe_pairwise hr) (fun _ _ _ => .refl _) hs hs' with hle | hle
  · exact ((hle v hv).vote (by omega) hvote).2.symm
  · exact ((hle v hv).vote (by omega) hvote').2

/-- **A term has one leader**, over all moments of a run. -/
theorem leaders_eq (hr : ClusterRun cfg (Avoids Node.Wraps) h) {t t' : Cluster} (ht : t ∈ h)
    (ht' : t' ∈ h) {a b : Nat} (ha : a ∈ cfg.ids) (hb : b ∈ cfg.ids)
    (hla : (t.core a).state = .leader) (hlb : (t'.core b).state = .leader)
    (hterm : (t.core a).term = (t'.core b).term) : a = b := by
  cases h with
  | nil => cases ht
  | cons s h =>
    have htally := Tally.of_run hr
    have hma := htally.led t ht a ha hla
    have hmb := htally.led t' ht' b hb hlb
    rw [← hterm] at hmb
    obtain ⟨v, hv, hva, hvb⟩ := Lib.exists_of_majority hma hmb
    exact Granted.unique hr hv (by simpa using hva) (by simpa using hvb)

/-- A run that never reaches the last term does not wrap. -/
theorem avoids_wraps {ok : Cluster → Action → Prop} (hr : ClusterRun cfg ok h)
    (hterm : ∀ s ∈ h, ∀ i ∈ cfg.ids, (s.nodes i).store.currentTerm < 2 ^ 64 - 1) :
    ClusterRun cfg (fun s a => ok s a ∧ Avoids Node.Wraps s a) h := by
  refine (hr.guard hterm).mono fun s a ⟨hok, hlt, s', hs⟩ => ⟨hok, fun i inp hh hw => ?_⟩
  cases inp with
  | electionTimer =>
    obtain ⟨i', inp', client, net, hh', hsrc, hi, -⟩ | ⟨hh', -⟩ | ⟨hh', -⟩ := stepIn_inv hs
    · rw [hh] at hh'
      cases hh'
      generalize hinp : Input.electionTimer = inp at hsrc
      cases hsrc with
      | electionTimer => exact absurd hw (Nat.ne_of_lt (hlt i (hi rfl)))
      | packet =>
        unfold input at hinp
        split at hinp <;> cases hinp
      | _ => cases hinp
    · rw [hh] at hh'
      cases hh'
    · rw [hh] at hh'
      cases hh'
  | _ => exact hw

end Cluster

/-- **Election safety.** A node is activated exactly while it leads, and no two nodes ever lead in
the same term, at the same or at different moments of a run. -/
theorem leader_unique {cfg : Config} {h : List Cluster}
    (hr : ClusterRun cfg (fun _ _ => True) h)
    (hterm : ∀ s ∈ h, ∀ i ∈ cfg.ids, (s.nodes i).store.currentTerm < 2 ^ 64 - 1) :
    (∀ s ∈ h, ∀ i ∈ cfg.ids, (s.nodes i).isActivated = true ↔ (s.nodes i).state = .leader) ∧
    ∀ s ∈ h, ∀ s' ∈ h, ∀ a ∈ cfg.ids, ∀ b ∈ cfg.ids,
      (s.nodes a).state = .leader → (s'.nodes b).state = .leader →
      (s.nodes a).store.currentTerm = (s'.nodes b).store.currentTerm → a = b := by
  refine ⟨fun s hs i hi => ?_, fun s hs s' hs' a ha b hb hla hlb heq => ?_⟩
  · exact ((hr.ok s hs).nodes i hi).aligned.isActivated
  · have hr' : ClusterRun cfg (Cluster.Avoids Node.Wraps) h :=
      (Cluster.avoids_wraps hr hterm).mono fun _ _ hok => hok.2
    exact Cluster.leaders_eq hr' hs hs' ha hb hla hlb heq

/-- Nodes 0 and 1 both stand in term 1, and node 2 votes for node 0. -/
theorem leader_unique_two_candidates :
    ∃ h, ClusterRun (.range 3 (by decide)) (fun _ _ => True) h ∧
      (∃ s ∈ h, (s.nodes 0).state = .leader ∧ (s.nodes 1).state = .candidate ∧
        (s.nodes 0).store.currentTerm = 1 ∧ (s.nodes 1).store.currentTerm = 1) ∧
      ∀ s ∈ h, ∀ b ∈ [0, 1, 2], (s.nodes b).state = .leader →
        (s.nodes b).store.currentTerm = 1 → b = 0 := by
  obtain ⟨h, hr, hc⟩ := Lib.System.exists_run (S := Cluster.system (.range 3 (by decide)))
    (fun _ _ => True)
    [.electionTimer 0, .electionTimer 1, .deliver 1, .deliver 3, .deliver 2]
    (fun h => (h.all fun s => [0, 1, 2].all fun i => (s.nodes i).store.currentTerm < 2 ^ 64 - 1) &&
      h.any fun s => (s.nodes 0).state = .leader ∧ (s.nodes 1).state = .candidate ∧
        (s.nodes 0).store.currentTerm = 1 ∧ (s.nodes 1).store.currentTerm = 1)
    (by decide +kernel)
  simp only [Bool.and_eq_true, List.all_eq_true, List.any_eq_true, decide_eq_true_eq] at hc
  obtain ⟨hlt, s, hs, hl0, hc1, ht0, ht1⟩ := hc
  refine ⟨h, hr, ⟨s, hs, hl0, hc1, ht0, ht1⟩, fun s' hs' b hb hlb htb => ?_⟩
  exact ((leader_unique hr hlt).2 s hs s' hs' 0 (by decide) b hb hl0 hlb (ht0.trans htb.symm)).symm

end Foros
