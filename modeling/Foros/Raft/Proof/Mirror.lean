import Foros.Raft.Proof.Commits
import Foros.Raft.Proof.Service

/-!
# The notices mirror the log

An application that starts from the log a node has when it opens its database, and follows the
notices of committed and reverted commands, has a copy of the node's log. It loses it at two places
of the source (`Node.Diverges`): `request_local_rollback` truncates the log without a notice, and
`complete_commit` gives a notice whether `push_log` took the entry or not. The callbacks of a run
leave the copy right in every state if and only if no callback goes through either
(`notices_mirror`).
-/

namespace Foros

/-- What the application knows of the node's log is the log. -/
def Life.Mirrors (logs : List LogEntry) (l : Life) : Prop :=
  ∃ replica, replay (logs.map (·.command)) l.effects = some replica ∧
    replica.length = l.node.getCommandsSize ∧ ∀ i, replica[i]?.join = l.node.getCommand i

/-- A callback that changes the log without a notice, or gives one without changing the log. -/
def Node.Diverges (n : Node) : Input → Prop
  | .appendEntries request =>
    n.isValidNode request.leaderId = true ∧ Logs.RollsBack request n.store.logs
  | .appendEntriesResponse id request response =>
    ∃ commit ∈ n.pendingCommit, commit.log.id = request.leaderCommit ∧
      commit.log.term = response.term ∧
      n.majority ≤ Node.successCount n.otherNodes
        (Function.update commit.resultMap id (some response.success)) response.success ∧
      commit.log.id ≠ n.store.logsSize
  | _ => False

instance (request : AppendEntriesRequest) (logs : List LogEntry) :
    Decidable (Logs.RollsBack request logs) := by
  unfold Logs.RollsBack
  infer_instance

instance (n : Node) (input : Input) : Decidable (n.Diverges input) := by
  refine Input.casesOn input ?_ ?_ ?_ ?_ ?_ ?_ ?_ <;> intros <;> dsimp only [Node.Diverges] <;>
    infer_instance

/-! ## Replaying -/

theorem replay_append (replica : List (Option Command)) (es es' : List Effect) :
    replay replica (es ++ es') = (replay replica es).bind fun r => replay r es' :=
  List.foldlM_append ..

/-- Messages are no notices. -/
theorem replay_messages (replica : List (Option Command)) :
    ∀ {es : List Effect}, (∀ e ∈ es, Core.Message e) → replay replica es = some replica
  | [], _ => rfl
  | e :: es, h => by
    have he : Effect.replay replica e = some replica := by
      have := h e List.mem_cons_self
      cases e <;> first | rfl | exact absurd this id
    change (Effect.replay replica e).bind (fun r => replay r es) = _
    rw [he]
    exact replay_messages replica fun e he => h e (List.mem_cons_of_mem _ he)

/-- Notices are visible. -/
theorem replay_visible (es : List Effect) : ∀ replica : List (Option Command),
    replay replica (es.filter Effect.visible) = replay replica es := by
  induction es with
  | nil => exact fun _ => rfl
  | cons e es ih =>
    intro replica
    have hcons : ∀ es, replay replica (e :: es) =
        (Effect.replay replica e).bind fun r => replay r es := fun _ => rfl
    by_cases hv : e.visible = true
    · rw [List.filter_cons_of_pos hv, hcons, hcons]
      congr 1
      funext r
      exact ih r
    · have he : Effect.replay replica e = some replica := by
        cases e <;> first | rfl | simp [Effect.visible] at hv
      rw [List.filter_cons_of_neg hv, hcons, he]
      exact ih replica

/-- The copy is the list of the log's commands. -/
theorem Life.mirrors_iff {logs : List LogEntry} {l : Life} :
    l.Mirrors logs ↔
      replay (logs.map (·.command)) l.effects = some (l.node.store.logs.map (·.command)) := by
  constructor
  · rintro ⟨replica, hr, hlen, hget⟩
    rw [hr]
    congr 1
    apply List.ext_getElem?
    intro i
    have hi := hget i
    unfold Node.getCommand ContextStore.log at hi
    unfold Node.getCommandsSize ContextStore.logsSize at hlen
    rw [List.getElem?_map]
    rcases Nat.lt_or_ge i replica.length with hlt | hge
    · rw [List.getElem?_eq_getElem hlt, List.getElem?_eq_getElem (hlen ▸ hlt)] at hi ⊢
      simpa using hi
    · rw [List.getElem?_eq_none hge, List.getElem?_eq_none (hlen ▸ hge)]
      rfl
  · intro hr
    refine ⟨_, hr, List.length_map _, fun i => ?_⟩
    unfold Node.getCommand ContextStore.log
    rw [List.getElem?_map]
    cases l.node.store.logs[i]? <;> rfl

/-! ## A callback -/

/-- The notices of a request follow the log unless it is rolled back. -/
theorem Logs.replay_appendNotices {logs : List LogEntry} (h : Logs.Indexed logs)
    (request : AppendEntriesRequest) :
    replay (logs.map (·.command)) (Logs.appendNotices request logs) =
        some ((Logs.append request logs).2.map (·.command)) ↔
      ¬ Logs.RollsBack request logs := by
  by_cases hr : Logs.RollsBack request logs
  · obtain ⟨h1, h2, hlt⟩ := Logs.append_of_rollsBack h hr
    rw [h1, h2]
    refine iff_of_false (fun heq => ?_) (not_not.2 hr)
    have hlen := congrArg List.length (Option.some.inj heq)
    simp only [List.length_map, List.length_take] at hlen
    omega
  · refine iff_of_true ?_ hr
    have ho := Logs.append_outcome h request
    generalize Logs.append request logs = r at ho ⊢
    generalize Logs.appendNotices request logs = es at ho ⊢
    cases ho with
    | ignored => rfl
    | rolledBack hroll => exact absurd hroll hr
    | confirmed _ _ => rfl
    | replaced _ _ hlt =>
      have hlen : ((logs.map (·.command)).take request.leaderCommit).length =
          request.leaderCommit := by
        rw [List.length_take, List.length_map]
        omega
      change (if _ then some _ else none : Option (List (Option Command))).bind some = _
      rw [if_pos hlen]
      simp [Logs.entry]
    | pushed _ he =>
      change (if _ then some _ else none : Option (List (Option Command))).bind some = _
      rw [if_pos (by rw [List.length_map, he])]
      simp [Logs.entry]

/-- The notices of a completed commit follow the log if the entry goes at its end. -/
theorem Core.replay_completeNotices (logs : List LogEntry) {log : LogEntry} (promise : Nat)
    (hc : log.command.isSome) :
    replay (logs.map (·.command)) (Core.completeNotices promise log) =
        some ((Logs.push log logs).2.map (·.command)) ↔
      log.id = logs.length := by
  have hreplay : replay (logs.map (·.command)) (Core.completeNotices promise log) =
      if log.id = logs.length then some (logs.map (·.command) ++ [log.command]) else none := by
    change (if _ then some _ else none : Option (List (Option Command))).bind some = _
    rw [List.length_map]
    by_cases hid : log.id = logs.length
    · rw [if_pos hid, if_pos hid.symm]
      rfl
    · rw [if_neg hid, if_neg (Ne.symm hid)]
      rfl
  rw [hreplay]
  by_cases hid : log.id = logs.length
  · obtain ⟨data, hd⟩ := Option.isSome_iff_exists.1 hc
    rw [if_pos hid, Logs.push_accepted hd hid]
    simp [hid]
  · rw [if_neg hid]
    simp [hid]

/-- An answer that completes a commit gives notice of an entry at the end of the log, unless the
log has changed under the commit. -/
theorem Node.replay_response {n : Node} (h : n.core.Sound) (id : Nat)
    (request : AppendEntriesRequest) (response : AppendEntriesResponse) :
    replay (n.store.logs.map (·.command))
        (((n.core.updatePeer id request response).observe response.term).countNotices id
          request.leaderCommit response.term response.success) =
        some ((n.core.appendEntriesResponse id request response).logs.map (·.command)) ↔
      ¬ n.Diverges (.appendEntriesResponse id request response) := by
  have hlogs : ((n.core.updatePeer id request response).observe response.term).logs =
      n.store.logs := Core.observe_logs ..
  unfold Core.appendEntriesResponse Core.countNotices Core.count
  cases hm : ((n.core.updatePeer id request response).observe response.term).matching
      request.leaderCommit response.term with
  | none =>
    refine iff_of_true ?_ ?_
    · simp only
      rw [hlogs]
      rfl
    · rintro ⟨commit, hp, hid, hterm, -⟩
      have hle : response.term ≤ (n.core.updatePeer id request response).term := by
        rw [← hterm, (h.held commit hp).2.1]
        rfl
      rw [Core.observe_of_le hle] at hm
      have hsome : (n.core.updatePeer id request response).matching request.leaderCommit
          response.term = some commit := Core.matching_eq_some.2 ⟨hp, hid, hterm⟩
      rw [hm] at hsome
      cases hsome
  | some commit =>
    have hans := Core.answers_of_matching hm
    have hcount : ((n.core.updatePeer id request response).observe response.term).Completes id
        response.success commit ↔ n.majority ≤ Node.successCount n.otherNodes
          (Function.update commit.resultMap id (some response.success)) response.success := by
      rw [Core.completes_iff, Core.successCount_eq]
      rfl
    simp only
    by_cases hc : ((n.core.updatePeer id request response).observe response.term).Completes id
        response.success commit
    · rw [if_pos hc, if_pos hc]
      change replay _ _ = some ((Logs.push commit.log
        ((n.core.updatePeer id request response).observe response.term).logs).2.map _) ↔ _
      rw [hlogs, Core.replay_completeNotices _ _ (h.held commit hans.pending).2.2]
      constructor
      · rintro hid ⟨commit', hp, -, -, -, hne⟩
        cases hans.pending.symm.trans hp
        exact hne hid
      · intro hno
        by_contra hid
        exact hno ⟨commit, hans.pending, hans.id, hans.term, hcount.1 hc, hid⟩
    · rw [if_neg hc, if_neg hc]
      refine iff_of_true ?_ ?_
      · change replay _ [] = some
          (((n.core.updatePeer id request response).observe response.term).logs.map _)
        rw [hlogs]
        rfl
      · rintro ⟨commit', hp, -, -, hmaj, -⟩
        cases hans.pending.symm.trans hp
        exact hc (hcount.2 hmaj)

/-- **A step's notices follow the log** unless the callback diverges. -/
theorem Node.replay_step {n : Node} {input : Input} {c' : Core} {es : List Effect}
    (h : n.core.Sound) (hin : input.HasCommand) (hs : n.core.Step input c' es) :
    replay (n.store.logs.map (·.command)) es = some (c'.logs.map (·.command)) ↔
      ¬ n.Diverges input := by
  -- the steps that keep the log and send messages only
  have hkept : c'.logs = n.store.logs → (∀ e ∈ es, Core.Message e) → ¬ n.Diverges input →
      (replay (n.store.logs.map (·.command)) es = some (c'.logs.map (·.command)) ↔
        ¬ n.Diverges input) := by
    intro hlogs hm hno
    rw [hlogs]
    exact iff_of_true (replay_messages _ hm) hno
  cases hs with
  | idleElection => exact hkept rfl (by simp) id
  | campaign _ =>
    refine hkept (Core.campaign_logs ..) (fun e he => ?_) id
    obtain ⟨node, -, rfl⟩ := List.mem_map.1 he
    trivial
  | idleBroadcast => exact hkept rfl (by simp) id
  | broadcast _ =>
    refine hkept rfl (fun e he => ?_) id
    obtain ⟨node, -, rfl⟩ := List.mem_map.1 he
    trivial
  | commitCommand command promise =>
    unfold Core.commitCommand Core.commitNotices
    by_cases hl : n.core.state = .leader
    · rw [if_neg (not_not.2 hl)]
      by_cases hsize : n.core.clusterSize ≤ 1
      · rw [if_pos hsize, if_pos ⟨hl, hsize⟩]
        have hc : (n.core.proposal command).command.isSome := hin
        exact iff_of_true ((Core.replay_completeNotices _ promise hc).2 rfl) id
      · rw [if_neg hsize, if_neg (fun h => hsize h.2)]
        split <;> exact iff_of_true rfl id
    · rw [if_pos hl, if_neg (fun h => hl h.1)]
      exact iff_of_true rfl id
  | appendEntries request =>
    unfold Core.appendNotices Core.appendEntries
    by_cases hv : n.core.isValid request.leaderId = true
    · rw [if_pos hv, if_neg (by rw [hv]; decide), replay_append]
      have hreply : ∀ r response, replay r [.replyAppendEntries request response] = some r :=
        fun _ _ => rfl
      have hiff : n.Diverges (.appendEntries request) ↔
          Logs.RollsBack request n.store.logs := and_iff_right hv
      simp only [hreply, Option.bind_fun_some]
      rw [hiff]
      exact Logs.replay_appendNotices h.indexed request
    · rw [if_neg hv, if_pos (Bool.not_eq_true _ ▸ hv)]
      exact iff_of_true rfl fun hd => hv hd.1
  | requestVote request =>
    refine hkept ?_ (fun e he => ?_) id
    · rcases n.core.requestVote_cases request with he | he | ⟨-, -, he⟩ <;> rw [he]
      · rfl
      · exact Core.observe_logs ..
      · exact Core.observe_logs ..
    · obtain rfl := List.mem_singleton.1 he
      trivial
  | appendEntriesResponse id request response => exact Node.replay_response h id request response
  | requestVoteResponse response =>
    refine hkept ?_ (by simp) id
    rcases n.core.requestVoteResponse_cases response with he | he | ⟨-, he⟩ <;> rw [he]
    · rfl
    · exact Core.observe_logs ..
    · exact Core.elect_logs ..

/-! ## Runs -/

theorem Life.mirrors_step {logs : List LogEntry} {l l' : Life} {input : Input}
    (hsound : l.node.core.Sound) (hin : input.HasCommand) (hm : l.Mirrors logs)
    (hl' : l' = ⟨l.node.run .plain input, l.effects ++ (l.node.run .plain input).trace⟩) :
    l'.Mirrors logs ↔ ¬ l.node.Diverges input := by
  obtain ⟨es, hs, hv, -⟩ := Node.run_sound hsound hin
  rw [mirrors_iff] at hm ⊢
  rw [hl', replay_append, hm, Option.bind_some, ← replay_visible]
  change replay _ (l.node.run .plain input).visible = _ ↔ _
  rw [hv]
  exact Node.replay_step hsound hin hs

/-- **The notices mirror the log** in every state of a run, if and only if no callback of it
diverges. -/
theorem notices_mirror {ids : List Nat} {me : Nat} {db : LevelDB} {h : List Life}
    (hr : ServiceRun ids me db (fun _ input => input.HasCommand) h) :
    (∀ l ∈ h, l.Mirrors (Node.create .plain ids me db).store.logs) ↔
      ServiceRun ids me db (fun l input => input.HasCommand ∧ ¬ l.node.Diverges input) h := by
  have hsound := ServiceRun.sound hr
  have hinit : ((Life.service ids me db).init).Mirrors
      (Node.create .plain ids me db).store.logs := by
    rw [Life.mirrors_iff, ← replay_visible]
    change replay _ (Node.create .plain ids me db).visible = _
    rw [(Node.create_sound ids me db).2]
    rfl
  apply hr.forall_mem_iff hinit
  intro l input l' hl hin hs hm
  exact Life.mirrors_step (hsound l hl) hin hm (Life.service_step hs)

/-- Node 0 appends an entry, replaces it on the word of a newer leader, is elected and completes a
commit of its own. -/
theorem notices_mirror_replaced_entry :
    ∃ h, ServiceRun [0, 1] 0 .empty
        (fun l input => input.HasCommand ∧ ¬ l.node.Diverges input) h ∧
      (∃ l ∈ h, replay [] l.effects = some [some [8], some [9]]) ∧
      ∀ l ∈ h, l.Mirrors (Node.create .plain [0, 1] 0 .empty).store.logs := by
  obtain ⟨h, hr, hc⟩ := Lib.System.exists_run (S := Life.service [0, 1] 0 .empty)
    (fun l input => input.HasCommand ∧ ¬ l.node.Diverges input)
    [.appendEntries ⟨1, 1, 0, 0, [7], 0⟩, .appendEntries ⟨2, 1, 0, 0, [8], 0⟩, .electionTimer,
      .electionTimer, .requestVoteResponse ⟨3, true⟩, .commitCommand (some [9]),
      .appendEntriesResponse 1 ⟨3, 0, 0, 2, [9], 1⟩ ⟨3, true⟩]
    (fun h => h.any fun l => replay [] l.effects = some [some [8], some [9]])
    (by decide +kernel)
  simp only [List.any_eq_true, decide_eq_true_eq] at hc
  exact ⟨h, hr, hc, (notices_mirror (hr.mono fun _ _ hok => hok.1)).2 hr⟩

/-- Node 0 has an entry of term 1 when a leader names term 2 for it: the entry goes without a
notice. -/
theorem notices_do_not_mirror :
    ∃ h, ServiceRun [0, 1] 0 .empty (fun _ input => input.HasCommand) h ∧
      ¬ ∀ l ∈ h, l.Mirrors (Node.create .plain [0, 1] 0 .empty).store.logs := by
  obtain ⟨h, hr, hc⟩ := Lib.System.exists_run (S := Life.service [0, 1] 0 .empty)
    (fun _ input => input.HasCommand)
    [.appendEntries ⟨1, 1, 0, 0, [7], 0⟩, .appendEntries ⟨2, 1, 0, 2, [8], 1⟩]
    (fun h => h.any fun l => replay [] l.effects ≠ some (l.node.store.logs.map (·.command)))
    (by decide +kernel)
  simp only [List.any_eq_true, decide_eq_true_eq] at hc
  obtain ⟨l, hl, hne⟩ := hc
  refine ⟨h, hr, fun hm => hne ?_⟩
  exact Life.mirrors_iff.1 (hm l hl)

end Foros
