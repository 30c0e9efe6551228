import Foros.Raft.Proof.WellFormed

/-!
# Votes

`VoteLe c c'`: `c'` comes after `c`. Terms grow, a vote stands within its term, and within a term
the state only moves on, from candidate to leader to follower. Every step that does not wrap the
term keeps this (`Step.voteLe`). `received` counts the votes of a term, and a step raises it only
by an election it starts or a granted answer (`Step.received`).
-/

namespace Foros

/-- The order of the states within a term. -/
def StateType.rank : StateType → Nat
  | .candidate => 0
  | .leader => 1
  | _ => 2

namespace Core

/-- `c'` comes after `c`. -/
structure VoteLe (c c' : Core) : Prop where
  term_le : c.term ≤ c'.term
  vote : c.term = c'.term → c.voted = true → c'.voted = true ∧ c'.votedFor = c.votedFor
  rank : c.term = c'.term → c.state.rank ≤ c'.state.rank

namespace VoteLe

variable {c c' c'' : Core}

theorem refl (c : Core) : VoteLe c c := ⟨Nat.le_refl _, fun _ h => ⟨h, rfl⟩, fun _ => Nat.le_refl _⟩

theorem trans (h : VoteLe c c') (h' : VoteLe c' c'') : VoteLe c c'' := by
  have h1 := h.term_le
  have h2 := h'.term_le
  refine ⟨Nat.le_trans h1 h2, fun he hv => ?_, fun he => ?_⟩
  · obtain ⟨hv', hf'⟩ := h.vote (by omega) hv
    obtain ⟨hv'', hf''⟩ := h'.vote (by omega) hv'
    exact ⟨hv'', hf''.trans hf'⟩
  · exact Nat.le_trans (h.rank (by omega)) (h'.rank (by omega))

theorem of_lt (h : c.term < c'.term) : VoteLe c c' :=
  ⟨Nat.le_of_lt h, fun he => by omega, fun he => by omega⟩

theorem of_eq (ht : c'.term = c.term) (hf : c'.votedFor = c.votedFor) (hv : c'.voted = c.voted)
    (hs : c.state.rank ≤ c'.state.rank) : VoteLe c c' :=
  ⟨Nat.le_of_eq ht.symm, fun _ h => ⟨hv ▸ h, hf⟩, fun _ => hs⟩

end VoteLe

variable {c c' : Core} {input : Input} {es : List Effect}

theorem rank_of_down {st : StateType} (h1 : st ≠ .candidate) (h2 : st ≠ .leader) :
    st.rank = 2 := by
  cases st <;> simp_all [StateType.rank]

theorem rank_le (st : StateType) : st.rank ≤ 2 := by cases st <;> decide

theorem voteLe_down (c : Core) : VoteLe c c.down :=
  .of_eq c.down_term c.down_votedFor c.down_voted (by
    rw [rank_of_down c.down_state.1 c.down_state.2]
    exact rank_le _)

theorem voteLe_observe (c : Core) (t : Nat) : VoteLe c (c.observe t) := by
  rcases Nat.lt_or_ge c.term t with h | h
  · refine .of_lt ?_
    rw [observe_term]
    omega
  · rw [observe_of_le h]
    exact .refl c

theorem voteLe_elect (c : Core) : VoteLe c c.elect := by
  obtain ⟨ps, st, he, -, hst⟩ := c.elect_eq
  rw [he]
  refine .of_eq rfl rfl rfl ?_
  rcases hst with rfl | ⟨hc, rfl, -⟩
  · exact Nat.le_refl _
  · rw [hc]
    exact Nat.zero_le _

theorem nextTerm_of_lt (h : c.term < 2 ^ 64 - 1) : c.nextTerm = c.term + 1 := by
  unfold nextTerm
  rw [Nat.mod_eq_of_lt (by omega), Nat.max_eq_right (Nat.le_succ _)]

/-- **A step moves on**, unless the election timer fires in the last term. -/
theorem Step.voteLe (h : c.Step input c' es) (hw : input = .electionTimer → c.term < 2 ^ 64 - 1) :
    VoteLe c c' := by
  cases h with
  | idleElection => exact .refl c
  | campaign _ =>
    refine .of_lt ?_
    rw [campaign_term, nextTerm_of_lt (hw rfl)]
    exact Nat.lt_succ_self _
  | idleBroadcast => exact .refl c
  | broadcast _ => exact .of_eq rfl rfl rfl (Nat.le_refl _)
  | commitCommand command promise =>
    obtain ⟨logs, p, he⟩ := c.commitCommand_eq command promise
    rw [he]
    exact .of_eq rfl rfl rfl (Nat.le_refl _)
  | appendEntries request =>
    rcases c.appendEntries_cases request with he | ⟨-, he⟩ | ⟨-, he⟩ <;> rw [he]
    · exact .refl c
    · exact .of_eq rfl rfl rfl (Nat.le_refl _)
    · have hdown := (voteLe_observe c request.term).trans (voteLe_down _)
      exact hdown.trans (.of_eq rfl rfl rfl (Nat.le_refl _))
  | requestVote request =>
    have hobs := voteLe_observe c request.term
    rcases c.requestVote_cases request with he | he | ⟨-, ⟨-, hfree, -⟩, he⟩ <;> rw [he]
    · exact .refl c
    · exact hobs
    · refine ⟨hobs.term_le, fun ht hv => ?_, hobs.rank⟩
      -- a vote of this term would still stand
      have := (hobs.vote ht hv).1
      rw [hfree] at this
      cases this
  | appendEntriesResponse id request response =>
    obtain ⟨logs, p, he⟩ := c.appendEntriesResponse_eq id request response
    have hpeer : VoteLe c (c.updatePeer id request response) := .of_eq rfl rfl rfl (Nat.le_refl _)
    rw [he]
    exact (hpeer.trans (voteLe_observe _ _)).trans (.of_eq rfl rfl rfl (Nat.le_refl _))
  | requestVoteResponse response =>
    rcases c.requestVoteResponse_cases response with he | he | ⟨-, he⟩ <;> rw [he]
    · exact .refl c
    · exact voteLe_observe c _
    · have hcount : VoteLe c { c with voteReceived := (c.voteReceived + 1) % 2 ^ 32 } :=
        .of_eq rfl rfl rfl (Nat.le_refl _)
      exact hcount.trans (voteLe_elect _)

/-! ## Votes received -/

/-- The votes counted in the term `t`. -/
def received (c : Core) (t : Nat) : Nat := if c.term = t then c.voteReceived else 0

theorem received_congr (ht : c'.term = c.term) (hv : c'.voteReceived = c.voteReceived) (t : Nat) :
    c'.received t = c.received t := by
  unfold received
  rw [ht, hv]

theorem received_self (c : Core) : c.received c.term = c.voteReceived := if_pos rfl

theorem received_observe_le (c : Core) (t T : Nat) : (c.observe t).received T ≤ c.received T := by
  rcases Nat.lt_or_ge c.term t with h | h
  · have hz : (c.observe t).voteReceived = 0 := by
      rw [observe_of_lt h, down_voteReceived]
      rfl
    unfold received
    rw [hz]
    simp
  · rw [observe_of_le h]

/-- What raises the count of a term: the node's own candidacy, or a granted answer. -/
theorem Step.received (h : c.Step input c' es) (hw : input = .electionTimer → c.term < 2 ^ 64 - 1)
    (T : Nat) :
    c'.received T ≤ c.received T ∨
    (input = .requestVoteResponse ⟨T, true⟩ ∧ c'.received T ≤ c.received T + 1) ∨
    (c.term < T ∧ c'.term = T ∧ c'.voted = true ∧ c'.votedFor = c.nodeId ∧
      c'.received T ≤ 1) := by
  cases h with
  | idleElection => exact .inl (Nat.le_refl _)
  | campaign _ =>
    by_cases hT : c.campaign.term = T
    · refine .inr (.inr ⟨?_, hT, c.campaign_voted, c.campaign_votedFor, ?_⟩)
      · rw [← hT, campaign_term, nextTerm_of_lt (hw rfl)]
        exact Nat.lt_succ_self _
      · rw [← hT, received_self, campaign_voteReceived]
    · refine .inl ?_
      unfold Core.received
      rw [if_neg hT]
      exact Nat.zero_le _
  | idleBroadcast => exact .inl (Nat.le_refl _)
  | broadcast _ => exact .inl (Nat.le_of_eq (received_congr rfl rfl T))
  | commitCommand command promise =>
    obtain ⟨logs, p, he⟩ := c.commitCommand_eq command promise
    rw [he]
    exact .inl (Nat.le_of_eq (received_congr rfl rfl T))
  | appendEntries request =>
    left
    rcases c.appendEntries_cases request with he | ⟨-, he⟩ | ⟨-, he⟩ <;> rw [he]
    · exact Nat.le_of_eq (received_congr rfl rfl T)
    · refine Nat.le_trans (Nat.le_of_eq ?_) (received_observe_le c request.term T)
      exact received_congr (down_term _) (down_voteReceived _) T
  | requestVote request =>
    left
    rcases c.requestVote_cases request with he | he | ⟨-, -, he⟩ <;> rw [he]
    · exact received_observe_le c request.term T
    · exact received_observe_le c request.term T
  | appendEntriesResponse id request response =>
    left
    obtain ⟨logs, p, he⟩ := c.appendEntriesResponse_eq id request response
    rw [he]
    exact received_observe_le (c.updatePeer id request response) response.term T
  | requestVoteResponse response =>
    rcases c.requestVoteResponse_cases response with he | he | ⟨hr, he⟩ <;> rw [he]
    · exact .inl (Nat.le_refl _)
    · exact .inl (received_observe_le c _ T)
    · rw [received_congr (elect_term _) (elect_voteReceived _)]
      by_cases hT : c.term = T
      · refine .inr (.inl ⟨by rw [hr, hT], ?_⟩)
        unfold Core.received
        simp only [hT, if_true]
        exact Nat.mod_le _ _
      · left
        unfold Core.received
        simp only [hT, if_false]
        exact Nat.le_refl _

theorem observe_leader {t : Nat} (hs : (c.observe t).state = .leader) :
    c.state = .leader ∧ (c.observe t).term = c.term := by
  rcases Nat.lt_or_ge c.term t with hlt | hge
  · rw [observe_of_lt hlt] at hs
    exact absurd hs (down_state _).2
  · rw [observe_of_le hge] at hs ⊢
    exact ⟨hs, rfl⟩

theorem elect_leader (hs : c.elect.state = .leader) :
    c.state = .leader ∨ c.majority ≤ c.voteReceived := by
  obtain ⟨ps, st, he, -, hst⟩ := c.elect_eq
  rw [he] at hs
  rcases hst with rfl | ⟨-, -, hm⟩
  · exact .inl hs
  · exact .inr hm

/-- A leader was one, in the same term, or has just counted a majority. -/
theorem Step.leader (h : c.Step input c' es) (hl : c'.state = .leader) :
    (c.state = .leader ∧ c'.term = c.term) ∨
      (c.state ≠ .leader ∧ c.majority ≤ c'.received c'.term) := by
  cases h with
  | idleElection => exact .inl ⟨hl, rfl⟩
  | campaign hst =>
    right
    refine ⟨fun hc => by simp [hc] at hst, ?_⟩
    rw [received_self, campaign_voteReceived]
    rcases elect_leader hl with hs | hm
    · cases hs
    · exact hm
  | idleBroadcast => exact .inl ⟨hl, rfl⟩
  | broadcast _ => exact .inl ⟨hl, rfl⟩
  | commitCommand command promise =>
    obtain ⟨logs, p, he⟩ := c.commitCommand_eq command promise
    rw [he] at hl ⊢
    exact .inl ⟨hl, rfl⟩
  | appendEntries request =>
    rcases c.appendEntries_cases request with he | ⟨-, he⟩ | ⟨-, he⟩ <;> rw [he] at hl ⊢
    · exact .inl ⟨hl, rfl⟩
    · exact .inl ⟨hl, rfl⟩
    · exact absurd hl (down_state _).2
  | requestVote request =>
    rcases c.requestVote_cases request with he | he | ⟨-, -, he⟩ <;> rw [he] at hl ⊢
    · exact .inl ⟨hl, rfl⟩
    · exact .inl (observe_leader hl)
    · exact .inl (observe_leader hl)
  | appendEntriesResponse id request response =>
    obtain ⟨logs, p, he⟩ := c.appendEntriesResponse_eq id request response
    rw [he] at hl ⊢
    exact .inl (observe_leader (c := c.updatePeer id request response) hl)
  | requestVoteResponse response =>
    rcases c.requestVoteResponse_cases response with he | he | ⟨-, he⟩ <;> rw [he] at hl ⊢
    · exact .inl ⟨hl, rfl⟩
    · exact .inl (observe_leader hl)
    · rw [received_self, elect_voteReceived, elect_term]
      by_cases hs : c.state = .leader
      · exact .inl ⟨hs, rfl⟩
      · rcases elect_leader hl with hs' | hm
        · exact absurd hs' hs
        · exact .inr ⟨hs, hm⟩

/-! ## Votes given -/

theorem campaign_rank (c : Core) : c.campaign.state.rank ≤ 1 := by
  obtain ⟨ps, st, he, -, hst⟩ := Core.elect_eq { c with
    term := c.nextTerm, votedFor := c.nodeId, voted := true, voteReceived := 1,
    state := .candidate }
  unfold campaign
  rw [he]
  rcases hst with rfl | ⟨-, rfl, -⟩
  · exact Nat.zero_le 1
  · exact Nat.le_refl 1

/-- A vote was given before, is the node's own candidacy, or is granted to a request. -/
theorem Step.vote (h : c.Step input c' es) (hv : c'.voted = true) :
    (c.voted = true ∧ c.votedFor = c'.votedFor ∧ c.term = c'.term) ∨ c' = c.campaign ∨
    ∃ request, input = .requestVote request ∧ (c.observe request.term).Grants request ∧
      c'.votedFor = request.candidateId ∧ c'.term = request.term ∧ c'.logs = c.logs := by
  have hobs : ∀ {c : Core} {t : Nat}, (c.observe t).voted = true →
      c.voted = true ∧ c.votedFor = (c.observe t).votedFor ∧ c.term = (c.observe t).term := by
    intro c t hv
    rcases Nat.lt_or_ge c.term t with hlt | hge
    · rw [observe_of_lt hlt, down_voted] at hv
      cases hv
    · rw [observe_of_le hge] at hv ⊢
      exact ⟨hv, rfl, rfl⟩
  cases h with
  | idleElection => exact .inl ⟨hv, rfl, rfl⟩
  | campaign _ => exact .inr (.inl rfl)
  | idleBroadcast => exact .inl ⟨hv, rfl, rfl⟩
  | broadcast _ => exact .inl ⟨hv, rfl, rfl⟩
  | commitCommand command promise =>
    obtain ⟨logs, p, he⟩ := c.commitCommand_eq command promise
    rw [he] at hv ⊢
    exact .inl ⟨hv, rfl, rfl⟩
  | appendEntries request =>
    left
    rcases c.appendEntries_cases request with he | ⟨-, he⟩ | ⟨-, he⟩ <;> rw [he] at hv ⊢
    · exact ⟨hv, rfl, rfl⟩
    · exact ⟨hv, rfl, rfl⟩
    · change (c.observe request.term).down.voted = true at hv
      rw [down_voted] at hv
      obtain ⟨h1, h2, h3⟩ := hobs hv
      refine ⟨h1, ?_, ?_⟩
      · exact h2.trans (down_votedFor _).symm
      · exact h3.trans (down_term _).symm
  | requestVote request =>
    rcases c.requestVote_cases request with he | he | ⟨-, hg, he⟩ <;> rw [he] at hv ⊢
    · exact .inl ⟨hv, rfl, rfl⟩
    · exact .inl (hobs hv)
    · refine .inr (.inr ⟨request, rfl, hg, rfl, ?_, observe_logs ..⟩)
      have hge := hg.1
      change (c.observe request.term).term = request.term
      rw [observe_term] at hge ⊢
      omega
  | appendEntriesResponse id request response =>
    obtain ⟨logs, p, he⟩ := c.appendEntriesResponse_eq id request response
    rw [he] at hv ⊢
    exact .inl (hobs (c := c.updatePeer id request response) hv)
  | requestVoteResponse response =>
    left
    rcases c.requestVoteResponse_cases response with he | he | ⟨-, he⟩ <;> rw [he] at hv ⊢
    · exact ⟨hv, rfl, rfl⟩
    · exact hobs hv
    · rw [elect_voted] at hv
      rw [elect_votedFor, elect_term]
      exact ⟨hv, rfl, rfl⟩

end Core

end Foros
