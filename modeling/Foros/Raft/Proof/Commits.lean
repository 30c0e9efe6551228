import Foros.Raft.Proof.Growth

/-!
# What a step does to the pending commit

A step keeps the pending commit, makes a fresh one, or records an answer in it (`Step.pending`).
It resolves a promise with success only when it completes the pending commit, or in a cluster of
one (`Step.resolved`). The count of an answer takes every recorded result that equals the answer,
so rejections can complete a commit; `Node.Miscounts` names the answers that do, and those that
accept another entry than the pending one.
-/

namespace Foros

/-- An answer is counted for the pending commit that does not accept its entry: a rejection that
makes a majority with those recorded, or the acceptance of an entry of another term. -/
def Node.Miscounts (n : Node) : Input → Prop
  | .appendEntriesResponse id request response =>
    ∃ commit ∈ n.pendingCommit, commit.log.id = request.leaderCommit ∧
      commit.log.term = response.term ∧
      (response.success = false ∧ n.majority ≤ 1 + n.otherNodes.countP (fun node =>
          node.nodeId = id ∨ commit.resultMap node.nodeId = some false) ∨
        response.success = true ∧ request.term ≠ commit.log.term)
  | _ => False

instance (n : Node) (input : Input) : Decidable (n.Miscounts input) := by
  refine Input.casesOn input ?_ ?_ ?_ ?_ ?_ ?_ ?_ <;> intros <;> dsimp only [Node.Miscounts] <;>
    infer_instance

namespace Core

variable {c c' : Core} {input : Input} {es : List Effect}

/-- An answer that reaches the pending commit. -/
structure Answers (c : Core) (commit : PendingCommit) (id : Nat) (request : AppendEntriesRequest)
    (response : AppendEntriesResponse) (input : Input) : Prop where
  input : input = .appendEntriesResponse id request response
  pending : c.pending = some commit
  id : commit.log.id = request.leaderCommit
  term : commit.log.term = response.term

/-- The commit an answer is counted for was pending before. -/
theorem answers_of_matching {id : Nat} {request : AppendEntriesRequest}
    {response : AppendEntriesResponse} {commit : PendingCommit}
    (hm : ((c.updatePeer id request response).observe response.term).matching
      request.leaderCommit response.term = some commit) :
    c.Answers commit id request response (.appendEntriesResponse id request response) := by
  obtain ⟨hp, hid, hterm⟩ := matching_eq_some.1 hm
  refine ⟨rfl, ?_, hid, hterm⟩
  rcases (c.updatePeer id request response).observe_pending response.term with hn | hsame
  · rw [hn] at hp
    cases hp
  · rw [← hp, hsame]
    rfl

/-- **The pending commit after a step.** -/
theorem Step.pending (h : c.Step input c' es) {commit' : PendingCommit}
    (hc : c'.pending = some commit') :
    c.pending = some commit' ∨
    (∃ command promise, commit' = ⟨c.proposal command, promise, fun _ => none⟩) ∨
    ∃ commit id request response, c.Answers commit id request response input ∧
      commit'.log = commit.log ∧
      commit'.resultMap = Function.update commit.resultMap id (some response.success) := by
  have hobs : ∀ {c : Core} {t : Nat}, (c.observe t).pending = some commit' →
      c.pending = some commit' := by
    intro c t hp
    rcases c.observe_pending t with hn | hsame
    · rw [hn] at hp
      cases hp
    · rwa [← hsame]
  cases h with
  | idleElection => exact .inl hc
  | campaign _ => exact .inl (c.campaign_pending ▸ hc)
  | idleBroadcast => exact .inl hc
  | broadcast _ => exact .inl (current_eq_some.1 hc).1
  | commitCommand command promise =>
    unfold Core.commitCommand at hc
    split at hc
    · exact .inl hc
    split at hc
    · exact .inl hc
    split at hc
    · exact .inl hc
    · cases hc
      exact .inr (.inl ⟨_, _, rfl⟩)
  | appendEntries request =>
    left
    rcases c.appendEntries_cases request with he | ⟨-, he⟩ | ⟨-, he⟩ <;> rw [he] at hc
    · exact hc
    · exact hc
    · have hp : (c.observe request.term).down.pending = some commit' := hc
      rcases (c.observe request.term).down_pending with hn | ⟨hsame, -⟩
      · rw [hn] at hp
        cases hp
      · exact hobs (hsame ▸ hp)
  | requestVote request =>
    left
    rcases c.requestVote_cases request with he | he | ⟨-, -, he⟩ <;> rw [he] at hc
    · exact hc
    · exact hobs hc
    · exact hobs hc
  | appendEntriesResponse id request response =>
    unfold Core.appendEntriesResponse count at hc
    split at hc
    · exact .inl (hobs (c := c.updatePeer id request response) hc)
    · rename_i commit hm
      split at hc
      · cases hc
      · cases hc
        exact .inr (.inr ⟨commit, id, request, response, answers_of_matching hm, rfl, rfl⟩)
  | requestVoteResponse response =>
    left
    rcases c.requestVoteResponse_cases response with he | he | ⟨-, he⟩ <;> rw [he] at hc
    · exact hc
    · exact hobs hc
    · rw [elect_pending] at hc
      exact hc

/-! ## Completion -/

/-- The count of an answer looks at the ids of the peers only. -/
theorem completes_iff {id t : Nat} {success : Bool} {commit : PendingCommit}
    {request : AppendEntriesRequest} {response : AppendEntriesResponse} :
    ((c.updatePeer id request response).observe t).Completes id success commit ↔
      c.majority ≤ 1 + (c.peers.map (·.nodeId)).countP fun j =>
        Function.update commit.resultMap id (some success) j = some success := by
  have hmaj : ((c.updatePeer id request response).observe t).majority = c.majority := by
    unfold observe
    split
    · rfl
    · obtain ⟨st, p, he, -⟩ :=
        ({ c.updatePeer id request response with term := t }.resetVote).down_eq
      rw [he]
      rfl
  have hids : (c.updatePeer id request response).peers.map (·.nodeId) =
      c.peers.map (·.nodeId) := map_updateIndex_nodeId ..
  unfold Completes
  rw [hmaj, observe_peers, successCount_eq, hids]

/-- A promise resolved with success: a cluster of one, or the pending commit is completed. -/
theorem Step.resolved (h : c.Step input c' es) (hok : c.Ok) {promise id' : Nat}
    {command : Option Command}
    (he : .resolved promise ⟨id', command, true⟩ ∈ es) :
    c.clusterSize ≤ 1 ∨
    ∃ commit id request response, c.Answers commit id request response input ∧
      commit.promise = promise ∧ commit.log.id = id' ∧ commit.log.command = command ∧
      c.majority ≤ 1 + ((c.peers.map (·.nodeId)).countP fun j =>
        Function.update commit.resultMap id (some response.success) j = some response.success) ∧
      c'.logs = (Logs.push commit.log c.logs).2 ∧ c'.term = c.term ∧ c'.state = c.state := by
  cases h with
  | idleElection => cases he
  | campaign _ =>
    obtain ⟨node, -, hn⟩ := List.mem_map.1 he
    cases hn
  | idleBroadcast => cases he
  | broadcast _ =>
    obtain ⟨node, -, hn⟩ := List.mem_map.1 he
    cases hn
  | commitCommand command promise =>
    unfold commitNotices at he
    split at he
    · rename_i hsize
      exact .inl hsize.2
    · cases he
  | appendEntries request =>
    rcases List.mem_append.1 he with he | he
    · unfold appendNotices at he
      split at he
      · rcases Logs.mem_appendNotices he with ⟨id, hn⟩ | ⟨id, command, hn⟩ <;> cases hn
      · cases he
    · cases List.mem_singleton.1 he
  | requestVote request => cases List.mem_singleton.1 he
  | appendEntriesResponse id request response =>
    unfold countNotices at he
    split at he
    · cases he
    rename_i commit hm
    split at he
    · rename_i hcompletes
      have hans := answers_of_matching hm
      -- the answer is of the pending commit's term, which is the node's own
      have hterm : response.term ≤ (c.updatePeer id request response).term := by
        have := (hok.pending commit hans.pending).2.1
        rw [updatePeer_term, ← hans.term, this]
      have hc' : Core.appendEntriesResponse id request response c =
          (c.updatePeer id request response).complete commit.log := by
        unfold Core.appendEntriesResponse count
        rw [hm]
        simp only [hcompletes, if_true]
        rw [observe_of_le hterm]
      simp only [completeNotices, List.mem_cons, reduceCtorEq, Effect.resolved.injEq,
        CommandCommitResponse.mk.injEq, List.not_mem_nil, or_false, false_or] at he
      obtain ⟨rfl, rfl, rfl, -⟩ := he
      refine .inr ⟨commit, id, request, response, hans, rfl, rfl, rfl, ?_, ?_⟩
      · exact completes_iff.1 hcompletes
      · rw [hc']
        exact ⟨rfl, rfl, rfl⟩
    · cases he
  | requestVoteResponse response => cases he

end Core

end Foros
