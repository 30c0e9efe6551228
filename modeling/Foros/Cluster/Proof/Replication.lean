import Foros.Cluster.Proof.Users
import Foros.Raft.Proof.Commits

/-!
# Replication

An accepting answer means that the sender of the answer has had the request's entry in its log
(`Replication.answers`), and an acceptance recorded in a pending commit is one of the commit's own
entry (`Replication.counted`), as long as no answer is miscounted. A commit that is completed then
has a majority of acceptances, the leader's own push among them. This holds of runs with users who
call back (`acks_replicated`), through the runs they show as. The code counts rejections too:
`acks_not_replicated` is a run in which one completes a commit.
-/

namespace Foros

/-- A node and its peers are the members. -/
theorem Config.perm_peers {cfg : Config} {i : Nat} (hi : i ∈ cfg.ids) :
    (i :: cfg.peers i).Perm cfg.ids := by
  refine (List.perm_ext_iff_of_nodup ?_ cfg.nodup).2 fun j => ?_
  · exact List.nodup_cons.2 ⟨fun hm => (Config.mem_peers.1 hm).2 rfl, cfg.nodup_peers i⟩
  · rw [List.mem_cons, Config.mem_peers]
    by_cases hj : j = i
    · simp [hj, hi]
    · simp [hj]

/-- A request that is accepted leaves its entry in the log. -/
theorem FromView.entry_mem {logs V : List LogEntry} {request : AppendEntriesRequest}
    (h : FromView V request) (hi : Logs.Indexed logs) (hagree : Logs.Agree logs V)
    (hs : (Logs.append request logs).1 = true) :
    request.entries ≠ [] ∧ Logs.entry request ∈ (Logs.append request logs).2 := by
  have ho := Logs.append_outcome hi request
  generalize Logs.append request logs = r at ho hs ⊢
  generalize Logs.appendNotices request logs = es at ho
  cases ho with
  | ignored => cases hs
  | rolledBack _ => cases hs
  | confirmed hm hc =>
    refine ⟨hm.1, ?_⟩
    -- the last entry has the request's index and term, so it is the view's entry
    obtain ⟨log, hl, -, hid, hterm⟩ := hc
    have hlog : logs[request.leaderCommit]? = some log := by
      rw [← hid]
      exact hi.mem_iff.1 (List.mem_of_getLast? hl)
    have hent := (h.entry hm.1).1
    have htake := hagree _ _ _ hlog hent hterm
    have hget := congrArg (fun l : List LogEntry => l[request.leaderCommit]?) htake
    simp only [List.getElem?_take_of_lt (Nat.lt_succ_self _), hlog, hent] at hget
    cases hget
    exact List.mem_of_getLast? hl
  | replaced hm _ _ => exact ⟨hm.1, List.mem_append_right _ (List.mem_singleton.2 rfl)⟩
  | pushed hm _ => exact ⟨hm.1, List.mem_append_right _ (List.mem_singleton.2 rfl)⟩

namespace Cluster

variable {cfg : Config} {s s' : Cluster} {a : Action} {h : List Cluster}

/-- The entry has been in the log of node `j`. -/
def Appended (h : List Cluster) (j : Nat) (e : LogEntry) : Prop :=
  ∃ t ∈ h, e ∈ (t.nodes j).store.logs

instance (h : List Cluster) (j : Nat) (e : LogEntry) : Decidable (Appended h j e) := by
  unfold Appended
  infer_instance

theorem Appended.cons {j : Nat} {e : LogEntry} (ha : Appended h j e) : Appended (s :: h) j e := by
  obtain ⟨t, ht, he⟩ := ha
  exact ⟨t, .tail _ ht, he⟩

/-- The number of nodes that have had the entry in their logs. -/
def holders (cfg : Config) (h : List Cluster) (e : LogEntry) : Nat :=
  cfg.ids.countP fun j => decide (Appended h j e)

/-- The peers that have accepted the pending commit make a majority with node `i`, the sender of an
accepting answer on its way to node `i` among them. -/
def Accepted (cfg : Config) (s : Cluster) (i : Nat) (commit : PendingCommit) : Prop :=
  ∃ p ∈ s.net, p.dst = i ∧
    (∃ request response, p.body = .appendEntriesResponse request response ∧
      request.leaderCommit = commit.log.id ∧ response.success = true) ∧
    cfg.ids.length / 2 + 1 ≤ 1 + (cfg.peers i).countP fun j =>
      Function.update commit.resultMap p.src (some true) j = some true

/-- Whenever a step completes a pending commit with success, a majority of the nodes has appended
its entry by then, and it is the acceptances that make the majority. -/
def AcksReplicated (cfg : Config) (h : List Cluster) : Prop :=
  ∀ s' s h', s' :: s :: h' <:+ h → ∀ i ∈ cfg.ids, ∀ commit,
    (s.nodes i).pendingCommit = some commit →
    (∀ commit' ∈ (s'.nodes i).pendingCommit, commit'.promise ≠ commit.promise) →
    .resolved commit.promise ⟨commit.log.id, commit.log.command, true⟩ ∈ (s'.nodes i).trace →
    cfg.ids.length / 2 + 1 ≤ holders cfg (s' :: s :: h') commit.log ∧ s.Accepted cfg i commit

/-- Steady, and no answer is miscounted. -/
def Counted (s : Cluster) (a : Action) : Prop := Steady s a ∧ Avoids Node.Miscounts s a

instance (s : Cluster) (a : Action) : Decidable (Counted s a) := by
  unfold Counted
  infer_instance

/-! ## Answers -/

/-- The invariant of a history that ends in `s`. -/
structure Replication (cfg : Config) (s : Cluster) (h : List Cluster) : Prop where
  answers : ∀ p ∈ s.net, ∀ request response, p.body = .appendEntriesResponse request response →
    Sent (s :: h) p.dst request ∧ (response.success = true →
      request.entries ≠ [] ∧ Appended (s :: h) p.src (Logs.entry request))
  counted : ∀ i ∈ cfg.ids, ∀ commit, (s.core i).pending = some commit →
    ∀ j, commit.resultMap j = some true → Appended (s :: h) j commit.log

theorem Replication.init (cfg : Config) : Replication cfg (Cluster.init cfg) [] := by
  refine ⟨fun p hp => ?_, fun i _ commit hc => ?_⟩
  · simp [Cluster.init] at hp
  · rw [init_core] at hc
    cases hc

/-- The answer to a request in flight. -/
theorem answer_of_request (hr : ClusterRun cfg Steady (s :: h)) {i : Nat} (hi : i ∈ cfg.ids)
    {request : AppendEntriesRequest} {q : Packet} (hq : q ∈ s.net)
    (hb : q.body = .appendEntries request)
    (hs' : (s'.core i) = ((s.core i).appendEntries request).2) :
    Sent (s' :: s :: h) q.src request ∧ (((s.core i).appendEntries request).1.success = true →
      request.entries ≠ [] ∧ Appended (s' :: s :: h) i (Logs.entry request)) := by
  have hm := Matching.of_run hr
  have hok := ClusterRun.ok hr s (.head _)
  have hsent := hm.sent q hq request hb
  refine ⟨hsent.cons, fun hsucc => ?_⟩
  obtain ⟨t, ht, -, hfrom⟩ := hsent
  have hagree : Logs.Agree (s.core i).logs (t.core q.src).view := by
    refine Chained.agree hr ?_ (hm.views t ht q.src (hok.packets q hq).src)
    exact Lib.Chained.of_prefix (hm.views s (.head _) i hi) (s.core i).logs_prefix_view
  have hentry := hfrom.entry_mem (hok.nodes i hi).core.logs.ordered.indexed hagree
  have hcases : ((s.core i).appendEntries request).1.success =
        (Logs.append request (s.core i).logs).1 ∧
      ((s.core i).appendEntries request).2.logs = (Logs.append request (s.core i).logs).2 := by
    rcases (s.core i).appendEntries_cases request with he | ⟨-, he⟩ | ⟨-, he⟩ <;> rw [he] at hsucc ⊢
    · cases hsucc
    · exact ⟨rfl, rfl⟩
    · exact ⟨rfl, rfl⟩
  obtain ⟨hne, hmem⟩ := hentry (hcases.1 ▸ hsucc)
  refine ⟨hne, s', .head _, ?_⟩
  change _ ∈ (s'.core i).logs
  rw [hs', hcases.2]
  exact hmem

theorem Replication.answers_step (hr : ClusterRun cfg Steady (s :: h))
    (hrep : Replication cfg s h) (hs : step cfg s a = some s') :
    ∀ p ∈ s'.net, ∀ request response, p.body = .appendEntriesResponse request response →
      Sent (s' :: s :: h) p.dst request ∧ (response.success = true →
        request.entries ≠ [] ∧ Appended (s' :: s :: h) p.src (Logs.entry request)) := by
  intro p hp request response hb
  have hok := ClusterRun.ok hr s (.head _)
  have hold : p ∈ s.net → Sent (s' :: s :: h) p.dst request ∧ (response.success = true →
      request.entries ≠ [] ∧ Appended (s' :: s :: h) p.src (Logs.entry request)) := by
    intro hp
    obtain ⟨h1, h2⟩ := hrep.answers p hp request response hb
    exact ⟨h1.cons, fun hsucc => ⟨(h2 hsucc).1, (h2 hsucc).2.cons⟩⟩
  cases (hok.move hs).1 with
  | @callback i inp client net es hi _ hsrc hstep _ _ _ hnet =>
    rw [hnet] at hp
    rcases List.mem_append.1 hp with hp | hp
    · exact hold ((hok.input hsrc).2.2.1 p hp)
    · generalize hc' : s'.core i = c' at hstep
      cases sends_of_step hstep hp with
      | @appendEntriesResponse request q hq =>
        cases hb
        obtain ⟨q', hqb, hof⟩ := hsrc.appendEntries
        obtain rfl : q = q' := Option.some.inj (hq.symm.trans hof.client)
        exact answer_of_request hr hi hof.mem hqb hc'
      | _ => cases hb
  | drop _ _ _ hnet =>
    rw [hnet] at hp
    exact hold (List.mem_of_mem_eraseIdx hp)
  | restart _ _ _ _ _ _ hnet =>
    rw [hnet] at hp
    exact hold hp

/-! ## Counts -/

/-- An accepted request of the pending commit's index and term carries its entry. -/
theorem entry_eq_pending (hr : ClusterRun cfg Steady (s :: h)) {i : Nat} (hi : i ∈ cfg.ids)
    {commit : PendingCommit} (hp : (s.core i).pending = some commit)
    {request : AppendEntriesRequest} (hsent : Sent (s :: h) i request)
    (hne : request.entries ≠ []) (hid : commit.log.id = request.leaderCommit)
    (hterm : request.term = commit.log.term) : Logs.entry request = commit.log := by
  obtain ⟨t, ht, hl, hfrom⟩ := hsent
  obtain ⟨hl', hterm', -⟩ := ((ClusterRun.ok hr s (.head _)).nodes i hi).core.pending commit hp
  have hset := settled hr s (.head _) i hi
  have hent := (hfrom.entry hne).1
  have hle := Lib.System.le_newest (growLe_pairwise hr) (fun _ _ _ => .refl _) ht i hi
  -- the view held an entry of the leader's present term, so it was one of this leadership
  have hT : (t.core i).term = (s.core i).term := by
    have h1 : (Logs.entry request).term ≤ (t.core i).term :=
      ((ClusterRun.ok hr t ht).nodes i hi).core.view.term_le _ (List.mem_of_getElem? hent)
    have h2 := hle.term_le
    have h3 : (Logs.entry request).term = (s.core i).term := hterm.trans hterm'
    omega
  obtain ⟨rest, hrest⟩ := hle.view hT hl hl'
  have hlt := (List.getElem?_eq_some_iff.1 hent).1
  have hend : ((t.core i).view ++ rest)[request.leaderCommit]? = some (Logs.entry request) := by
    rw [List.getElem?_append_left hlt]
    exact hent
  rw [hrest, hset.view_some hp, ← hid, (hset commit hp).1, List.getElem?_concat_length] at hend
  exact (Option.some.inj hend).symm

/-- What an answer that is counted right says. -/
theorem answer_counted {inp : Input} {i id : Nat} {commit : PendingCommit}
    {request : AppendEntriesRequest} {response : AppendEntriesResponse}
    (hans : (s.core i).Answers commit id request response inp)
    (hn : ¬ (s.nodes i).Miscounts inp) :
    (response.success = true → request.term = commit.log.term) ∧
    (response.success = false → ¬ (s.core i).majority ≤ 1 +
      ((s.core i).peers.map (·.nodeId)).countP fun j =>
        Function.update commit.resultMap id (some response.success) j = some response.success) := by
  rw [hans.input] at hn
  refine ⟨fun hsucc => ?_, fun hrej hmaj => hn ⟨commit, hans.pending, hans.id, hans.term, .inl ?_⟩⟩
  · by_contra hne
    exact hn ⟨commit, hans.pending, hans.id, hans.term, .inr ⟨hsucc, hne⟩⟩
  · refine ⟨hrej, ?_⟩
    rw [List.countP_map, hrej] at hmaj
    refine Nat.le_trans hmaj (Nat.add_le_add_left (List.countP_mono_left fun node _ hj => ?_) 1)
    simp only [Function.comp_apply, decide_eq_true_eq, Function.update_apply] at hj ⊢
    split at hj
    · exact .inl ‹_›
    · exact .inr hj

/-- The peers that have accepted, with the answer just received. -/
theorem Replication.accepted (hr : ClusterRun cfg Steady (s :: h)) (hrep : Replication cfg s h)
    {i : Nat} (hi : i ∈ cfg.ids) {inp : Input} {client : Option Packet} {net : List Packet}
    (hsrc : Source s i inp client net) {commit : PendingCommit} {id : Nat}
    {request : AppendEntriesRequest} {response : AppendEntriesResponse}
    (hans : (s.core i).Answers commit id request response inp)
    (hn : ¬ (s.nodes i).Miscounts inp) (j : Nat)
    (hj : Function.update commit.resultMap id (some response.success) j = some true) :
    Appended (s :: h) j commit.log := by
  rw [Function.update_apply] at hj
  split at hj
  · rename_i hjd
    subst hjd
    have hsucc : response.success = true := Option.some.inj hj
    obtain rfl := hans.input
    obtain ⟨p, hps, hb, hof⟩ := hsrc.appendEntriesResponse
    obtain ⟨hsent, hacc⟩ := hrep.answers p hof.mem request response hb
    obtain ⟨hne, happ⟩ := hacc hsucc
    rw [hof.dst] at hsent
    rw [hps] at happ
    rwa [entry_eq_pending hr hi hans.pending hsent hne hans.id
      ((answer_counted hans hn).1 hsucc)] at happ
  · exact hrep.counted i hi commit hans.pending j hj

theorem Replication.counted_step (hr : ClusterRun cfg Steady (s :: h)) (hrep : Replication cfg s h)
    (ha : Avoids Node.Miscounts s a) (hs : step cfg s a = some s') :
    ∀ i ∈ cfg.ids, ∀ commit, (s'.core i).pending = some commit →
      ∀ j, commit.resultMap j = some true → Appended (s' :: s :: h) j commit.log := by
  intro j hj commit' hc k hk
  have hok := ClusterRun.ok hr s (.head _)
  have hold : (s.core j).pending = some commit' → Appended (s' :: s :: h) k commit'.log :=
    fun hp => (hrep.counted j hj commit' hp k hk).cons
  cases (hok.move hs).1 with
  | @callback i inp client net es hi hh hsrc hstep _ hothers _ _ =>
    by_cases hji : j = i
    · subst hji
      rcases hstep.pending hc with hp | ⟨command, promise, rfl⟩ |
        ⟨commit, id, request, response, hans, hlog, hmap⟩
      · exact hold hp
      · cases hk
      · rw [hlog]
        exact (hrep.accepted hr hj hsrc hans (ha j inp hh) k (hmap ▸ hk)).cons
    · apply hold
      rw [← hc]
      unfold core
      rw [hothers j hji]
  | drop _ hn _ _ =>
    apply hold
    rw [← hc]
    unfold core
    rw [hn]
  | @restart i hi _ hcore _ hothers _ _ =>
    by_cases hji : j = i
    · subst hji
      rw [hcore] at hc
      cases hc
    · apply hold
      rw [← hc]
      unfold core
      rw [hothers j hji]

theorem Replication.of_run (hr : ClusterRun cfg Counted (s :: h)) : Replication cfg s h := by
  refine hr.history (P := fun | [] => True | s :: h => Replication cfg s h) (Replication.init cfg)
    fun s a s' h hr hrep ha hs => ?_
  have hsteady : ClusterRun cfg Steady (s :: h) := hr.mono fun _ _ hok => hok.1
  exact ⟨hrep.answers_step hsteady hs, hrep.counted_step hsteady ha.2 hs⟩

/-! ## Acknowledged commits -/

/-- A majority of acceptances, with the leader's own push. -/
theorem holders_of_majority {i : Nat} (hi : i ∈ cfg.ids) {e : LogEntry} {q : Nat → Bool}
    (hmaj : cfg.ids.length / 2 + 1 ≤ 1 + (cfg.peers i).countP q)
    (hq : ∀ j, q j = true → Appended h j e) (hown : Appended h i e) :
    cfg.ids.length / 2 + 1 ≤ holders cfg h e := by
  have hle : (cfg.peers i).countP q ≤ (cfg.peers i).countP fun j => decide (Appended h j e) :=
    List.countP_mono_left fun j _ hj => by simpa using hq j hj
  have hcons : (i :: cfg.peers i).countP (fun j => decide (Appended h j e)) =
      (cfg.peers i).countP (fun j => decide (Appended h j e)) + 1 :=
    List.countP_cons_of_pos (by simpa using hown)
  unfold holders
  rw [← (Config.perm_peers hi).countP_eq, hcons]
  omega

section

variable {i : Nat} {inp : Input} {client : Option Packet} {net : List Packet} {es : List Effect}
  {promise id : Nat} {command : Option Command}

/-- A commit that is completed with success is completed by acceptances. -/
theorem accepted_of_step (hok : Ok cfg s) (ha : Avoids Node.Miscounts s a)
    (hsize : 2 ≤ cfg.ids.length) (hi : i ∈ cfg.ids) (hh : s.handled a = some (i, inp))
    (hstep : (s.core i).Step inp (s'.core i) es)
    (he : .resolved promise ⟨id, command, true⟩ ∈ es) :
    ∃ commit id' request response, (s.core i).Answers commit id' request response inp ∧
      response.success = true ∧ commit.promise = promise ∧ commit.log.id = id ∧
      commit.log.command = command ∧
      cfg.ids.length / 2 + 1 ≤ 1 + (cfg.peers i).countP (fun j =>
        Function.update commit.resultMap id' (some true) j = some true) ∧
      (s'.core i).logs = (Logs.push commit.log (s.core i).logs).2 ∧
      (s'.core i).term = (s.core i).term ∧ (s'.core i).state = (s.core i).state := by
  have hnode := hok.nodes i hi
  rcases hstep.resolved hnode.core he with hone | ⟨commit, id', request, response, hans, hpromise,
    hid, hcmd, hmaj, hrest⟩
  · have hn : (s.core i).clusterSize = cfg.ids.length := hnode.clusterSize
    omega
  have hsucc : response.success = true := by
    by_contra hrej
    exact (answer_counted hans (ha i inp hh)).2 (Bool.eq_false_iff.2 hrej) hmaj
  have hpeers : (s.core i).peers.map (·.nodeId) = cfg.peers i := hnode.peers
  have hmajority : (s.core i).majority = cfg.ids.length / 2 + 1 := hnode.majority
  rw [hpeers, hmajority, hsucc] at hmaj
  exact ⟨commit, id', request, response, hans, hsucc, hpromise, hid, hcmd, hmaj, hrest⟩

/-- **An acknowledged entry** has been appended by a majority, and is in the leader's log. -/
theorem ack_of_step (hr : ClusterRun cfg Counted (s :: h)) (ha : Avoids Node.Miscounts s a)
    (hsize : 2 ≤ cfg.ids.length) (hi : i ∈ cfg.ids)
    (hh : s.handled a = some (i, inp)) (hsrc : Source s i inp client net)
    (hstep : (s.core i).Step inp (s'.core i) es)
    (he : .resolved promise ⟨id, command, true⟩ ∈ es) :
    ∃ commit, (s.core i).pending = some commit ∧ commit.log.id = id ∧
      commit.log.command = command ∧
      cfg.ids.length / 2 + 1 ≤ holders cfg (s' :: s :: h) commit.log ∧
      (s'.core i).state = .leader ∧ (s'.core i).term = commit.log.term ∧
      commit.log ∈ (s'.core i).logs := by
  have hsteady : ClusterRun cfg Steady (s :: h) := hr.mono fun _ _ hok => hok.1
  have hok := ClusterRun.ok hr s (.head _)
  obtain ⟨commit, id', request, response, hans, hsucc, -, hid, hcmd, hmaj, hlogs, hterm, hstate⟩ :=
    accepted_of_step hok ha hsize hi hh hstep he
  obtain ⟨hl, hlt, hsome⟩ := (hok.nodes i hi).core.pending commit hans.pending
  obtain ⟨data, hd⟩ := Option.isSome_iff_exists.1 hsome
  have hpush : (s'.core i).logs = (s.core i).logs ++ [commit.log] := by
    rw [hlogs, Logs.push_accepted hd (settled hsteady s (.head _) i hi commit hans.pending).1]
  have hmem : commit.log ∈ (s'.core i).logs := by
    rw [hpush]
    exact List.mem_append_right _ (List.mem_singleton.2 rfl)
  refine ⟨commit, hans.pending, hid, hcmd, ?_, hstate.trans hl, hterm.trans hlt.symm, hmem⟩
  refine holders_of_majority hi hmaj (fun j hj => ?_) ⟨s', .head _, hmem⟩
  have hacc : Function.update commit.resultMap id' (some response.success) j = some true := by
    rw [hsucc]
    exact of_decide_eq_true hj
  exact ((Replication.of_run hr).accepted hsteady hi hsrc hans (ha i inp hh) j hacc).cons

/-- A step of a run that completes a pending commit with success. -/
theorem replicated_step (hsize : 2 ≤ cfg.ids.length) (hr : ClusterRun cfg Counted (s :: h))
    (ha : Counted s a) (hs : step cfg s a = some s') (hi : i ∈ cfg.ids)
    (hh : s.handled a = some (i, inp)) {commit : PendingCommit}
    (hp : (s.nodes i).pendingCommit = some commit)
    (he : s'.Acks i commit.promise commit.log.id commit.log.command) :
    cfg.ids.length / 2 + 1 ≤ holders cfg (s' :: s :: h) commit.log ∧ s.Accepted cfg i commit := by
  have hok := ClusterRun.ok hr s (.head _)
  have hvis : .resolved commit.promise ⟨commit.log.id, commit.log.command, true⟩ ∈
      (s'.nodes i).visible := List.mem_filter.2 ⟨he, rfl⟩
  cases (hok.move hs).1 with
  | @callback j inp' client net es hj hh' hsrc hstep hes _ _ _ =>
    obtain ⟨rfl, rfl⟩ : i = j ∧ inp = inp' := by
      rw [hh] at hh'
      cases hh'
      exact ⟨rfl, rfl⟩
    rw [hes] at hvis
    obtain ⟨commit', hpend, -, -, hmaj, -⟩ := ack_of_step hr ha.2 hsize hi hh hsrc hstep hvis
    obtain rfl : commit = commit' := Option.some.inj (hp.symm.trans hpend)
    obtain ⟨commit', id, request, response, hans, hsucc, -, -, -, hacc, -⟩ :=
      accepted_of_step hok ha.2 hsize hi hh hstep hvis
    obtain rfl : commit = commit' := Option.some.inj (hp.symm.trans hans.pending)
    rw [hans.input] at hsrc
    obtain ⟨p, rfl, hb, hof⟩ := hsrc.appendEntriesResponse
    exact ⟨hmaj, p, hof.mem, hof.dst, ⟨request, response, hb, hans.id.symm, hsucc⟩, hacc⟩
  | drop hh' _ _ _ =>
    rw [hh] at hh'
    cases hh'
  | restart _ hh' _ _ _ _ _ =>
    rw [hh] at hh'
    cases hh'

end

theorem Counted.unaffected (cfg : Config) : Unaffected cfg Counted where
  alike hst hc := ⟨⟨hst.avoids (fun _ inp _ hb => by cases inp <;> exact hb) hc.1.1,
    hst.avoids (fun _ inp _ hb => by cases inp <;> exact hb) hc.1.2⟩,
    hst.avoids (fun _ inp _ hb => by cases inp <;> exact hb) hc.2⟩
  call _ i _ := ⟨⟨fun j inp hh hb => by cases hh; exact hb,
    fun j inp hh hb => by cases hh; exact hb⟩, fun j inp hh hb => by cases hh; exact hb⟩
  steady hc := hc.1

theorem holders_mono {k : List Cluster} (hsub : ∀ s ∈ k, s ∈ h) (e : LogEntry) :
    holders cfg k e ≤ holders cfg h e := by
  refine List.countP_mono_left fun j _ hj => ?_
  obtain ⟨t, ht, he⟩ := of_decide_eq_true hj
  exact decide_eq_true ⟨t, hsub t ht, he⟩

/-- What a node has appended in the run, it has in the user's run. -/
theorem Shows.holders_le {ok : Cluster → Action → Prop} {k : List Cluster}
    (hs : Shows cfg ok h k) (e : LogEntry) :
    holders cfg k e ≤ holders cfg h e := by
  refine List.countP_mono_left fun j _ hj => ?_
  obtain ⟨w, hw, he⟩ := of_decide_eq_true hj
  obtain ⟨s, hm, hb⟩ := hs.mem_below w hw
  exact decide_eq_true ⟨s, hm, (hb.logs j).subset he⟩

end Cluster

/-- **Acknowledged means replicated on a quorum**, in every run, with users that call back, in which
no election wraps the term, no leader handles an entry of an older term, no answer is miscounted,
and no user calls back for a commit that fails because its leader steps down. -/
theorem acks_replicated {cfg : Config} {h : List Cluster} (hsize : 2 ≤ cfg.ids.length)
    (hr : UserRun cfg (Cluster.WithUsers Cluster.Counted) h) : Cluster.AcksReplicated cfg h := by
  intro s' s h' hsuf i hi commit hp hp' he
  obtain ⟨k, hk, hshow⟩ := Cluster.exists_shown (Cluster.Counted.unaffected cfg)
    (hr.of_suffix hsuf (by simp))
  have hle := hshow.holders_le commit.log
  cases hshow with
  | @step s s' t r t' v a h' k l hprev hrun ha hshown hst hs' hran =>
    -- the callback of the last step has completed the commit
    rcases hran i with hsame | ⟨hnew, ⟨inp, hh⟩ | hnone⟩
    · exact absurd rfl (hp' commit (hsame ▸ hp))
    · have hack : t'.Acks i commit.promise commit.log.id commit.log.command := by
        refine hshown.acks hsize i inp hh _ _ _ ?_
        unfold Cluster.Acks
        rwa [← hnew]
      have hpt : (t.nodes i).pendingCommit = some commit := by
        rw [hst.node] at hp
        exact hp
      obtain ⟨hmaj, p, hmem, hrest⟩ :=
        Cluster.replicated_step hsize hrun ha hshown.step hi hh hpt hack
      refine ⟨Nat.le_trans hmaj (Nat.le_trans (Cluster.holders_mono (fun x hx => ?_) _) hle), p,
        hst.net ▸ hmem, hrest⟩
      rcases List.mem_cons.1 hx with rfl | hx
      · exact List.mem_append_left _ hshown.mem
      · exact List.mem_append_right _ hx
    · exact absurd he (hnone _ _)

/-- Two nodes: the follower accepts `[1]`, and its answer completes the commit; then `[2]`, which
the user commits when it hears of that. -/
theorem acks_replicated_second_entry :
    ∃ h, UserRun (.range 2 (by decide)) (Cluster.WithUsers Cluster.Counted) h ∧
      (∃ s ∈ h, .resolved 0 ⟨0, some [1], true⟩ ∈ (s.nodes 0).trace) ∧
      (∃ s ∈ h, .resolved 1 ⟨1, some [2], true⟩ ∈ (s.nodes 0).trace) ∧
      Cluster.AcksReplicated (.range 2 (by decide)) h := by
  obtain ⟨h, hr, hc⟩ := UserRun.exists_onward (.range 2 (by decide)) Cluster.Counted
    [.electionTimer 0, .deliver 0, .deliver 0, .broadcastTimer 0, .deliver 0, .deliver 0,
      .commitCommand 0 [1], .broadcastTimer 0, .deliver 0, .deliver 0, .broadcastTimer 0,
      .deliver 0, .deliver 0]
    (fun h => (h.any fun s => decide (.resolved 0 ⟨0, some [1], true⟩ ∈ (s.nodes 0).trace)) &&
      h.any fun s => decide (.resolved 1 ⟨1, some [2], true⟩ ∈ (s.nodes 0).trace))
    (by decide +kernel)
  simp only [Bool.and_eq_true, List.any_eq_true, decide_eq_true_eq] at hc
  exact ⟨h, hr, hc.1, hc.2, acks_replicated (by decide) hr⟩

/-- Two nodes: the leader proposes `[1]` while a heartbeat is under way, and the follower's answer
to the heartbeat, a rejection, completes the commit. Only the leader has the entry. -/
theorem acks_not_replicated :
    ∃ h, UserRun (.range 2 (by decide)) (fun _ a => a.1 = .plain) h ∧
      ¬ Cluster.AcksReplicated (.range 2 (by decide)) h := by
  obtain ⟨h, hr, hc⟩ := Lib.System.exists_run (S := Cluster.system (.range 2 (by decide)))
    (fun _ _ => True)
    [.electionTimer 0, .deliver 0, .deliver 0, .broadcastTimer 0, .deliver 0,
      .commitCommand 0 [1], .deliver 0]
    (fun
      | s' :: s :: h' => (s.nodes 0).pendingCommit.any fun commit =>
        (s'.nodes 0).pendingCommit.isNone &&
        decide (.resolved commit.promise ⟨commit.log.id, commit.log.command, true⟩ ∈
          (s'.nodes 0).trace) &&
        Cluster.holders (.range 2 (by decide)) (s' :: s :: h') commit.log = 1
      | _ => false) (by decide +kernel)
  refine ⟨h, (ClusterRun.users hr).mono fun _ _ ha => ha.1, fun hacks => ?_⟩
  split at hc
  · rename_i s' s h'
    obtain ⟨commit, hp, hc⟩ := (Option.any_eq_true _ _).1 hc
    simp only [Bool.and_eq_true, decide_eq_true_eq, Option.isNone_iff_eq_none] at hc
    obtain ⟨⟨hp', he⟩, hone⟩ := hc
    obtain ⟨hmaj, -⟩ := hacks s' s h' List.suffix_rfl 0 (by decide) commit hp
      (fun commit' hc' => by rw [hp'] at hc'; cases hc') he
    rw [hone] at hmaj
    exact absurd hmaj (by decide)
  · cases hc

end Foros
