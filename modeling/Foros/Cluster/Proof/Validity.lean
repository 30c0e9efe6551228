import Foros.Cluster.Proof.Agreement
import Foros.Cluster.Proof.Terms
import Foros.Raft.Proof.Origin

/-!
# Nothing is made up

`Proposed cfg h e`: a user passed the command of `e` to `commit_command` of a node that led the term
of `e` and had as many entries as the id of `e` says. In every run, whatever is lost, repeated or
stale, every entry in a log, pending or in flight has been proposed, and so has every entry that a
node announces to its user (`entries_proposed`). A log with `n` entries has an entry that was
proposed to a log with `n - 1`, so no log is longer than the number of commands its users have
passed to the cluster (`logs_within_commands`).
-/

namespace Foros

namespace Cluster

variable {cfg : Config} {s s' : Cluster × List Action} {a : Action}
  {h : List (Cluster × List Action)}

/-- The entry was proposed by the user of a leader. -/
def Proposed (cfg : Config) (h : List (Cluster × List Action)) (e : LogEntry) : Prop :=
  ∃ t' t h' i command, t' :: t :: h' <:+ h ∧ i ∈ cfg.ids ∧
    t'.2 = .commitCommand i command :: t.2 ∧ (t.1.nodes i).state = .leader ∧
    e = ⟨(t.1.nodes i).store.logs.length, (t.1.nodes i).store.currentTerm, some command⟩ ∧
    e ∈ (t'.1.core i).view

theorem Proposed.cons {e : LogEntry} (hp : Proposed cfg h e) : Proposed cfg (s :: h) e := by
  obtain ⟨t', t, h', i, command, hsuf, hrest⟩ := hp
  exact ⟨t', t, h', i, command, hsuf.trans (List.suffix_cons ..), hrest⟩

/-- The invariant of a history that ends in `s`. -/
structure Valid (cfg : Config) (s : Cluster) (h : List (Cluster × List Action)) : Prop where
  logs : ∀ i ∈ cfg.ids, ∀ e ∈ (s.core i).logs, Proposed cfg h e
  pending : ∀ i ∈ cfg.ids, ∀ commit, (s.core i).pending = some commit → Proposed cfg h commit.log
  requests : ∀ p ∈ s.net, ∀ request, p.body = .appendEntries request → request.entries ≠ [] →
    Proposed cfg h (Logs.entry request)
  notices : ∀ i ∈ cfg.ids, ∀ effect ∈ (s.nodes i).visible, ∀ id command,
    Core.Announces id command effect →
      ∃ e : LogEntry, e.id = id ∧ e.command = command ∧ Proposed cfg h e

theorem Valid.init (cfg : Config) : Valid cfg (Cluster.init cfg) h := by
  refine ⟨fun i _ e he => ?_, fun i _ commit hc => ?_, fun p hp => ?_, fun i _ effect he => ?_⟩
  · rw [init_core] at he
    cases he
  · rw [init_core] at hc
    cases hc
  · cases hp
  · rw [init_visible] at he
    cases he

/-- The entries of the view. -/
theorem Valid.view (hv : Valid cfg s.1 h) {i : Nat} (hi : i ∈ cfg.ids) {e : LogEntry}
    (he : e ∈ (s.1.core i).view) : Proposed cfg h e := by
  rcases List.mem_append.1 he with he | he
  · exact hv.logs i hi e he
  · obtain ⟨commit, hc, rfl⟩ : ∃ commit, (s.1.core i).current = some commit ∧ commit.log = e := by
      simpa using he
    exact hv.pending i hi commit (Core.current_eq_some.1 hc).1

/-- An entry a callback handles has been proposed, if only by the callback itself. -/
theorem Valid.origin (hv : Valid cfg s.1 (s :: h)) {i : Nat} (hi : i ∈ cfg.ids) {inp : Input}
    {client : Option Packet} {net : List Packet} (hh : s.1.handled a = some (i, inp))
    (hsrc : Source s.1 i inp client net) (hact : s'.2 = a :: s.2) {e : LogEntry}
    (ho : Core.Origin (s.1.core i) inp (s'.1.core i) e) : Proposed cfg (s' :: s :: h) e := by
  cases ho with
  | log he => exact (hv.logs i hi e he).cons
  | pending hc he => exact he ▸ (hv.pending i hi _ hc).cons
  | @request request hinp hne he =>
    subst hinp he
    obtain ⟨p, hb, hof⟩ := hsrc.appendEntries
    exact (hv.requests p hof.mem request hb hne).cons
  | proposal hinp hl he hview =>
    subst hinp
    obtain ⟨data, rfl, rfl⟩ := commitCommand_of_handled hh
    exact ⟨s', s, h, i, data, List.suffix_rfl, hi, hact, hl, he.symm, hview⟩

theorem Valid.step (hok : Ok cfg s.1) (hv : Valid cfg s.1 (s :: h))
    (hs : (Cluster.system cfg).record.step s a = some s') :
    Valid cfg s'.1 (s' :: s :: h) := by
  obtain ⟨hs, hact⟩ := Lib.System.record_step.1 hs
  have hm := (hok.move hs).1
  refine ⟨fun i hi e he => ?_, fun i hi commit hc => ?_, fun p hp request hb hne => ?_,
    fun i hi effect he id command ha => ?_⟩
  · cases hm.node i with
    | same hn => exact (hv.logs i hi e (core_eq hn ▸ he)).cons
    | callback hh hsrc hstep _ =>
      exact hv.origin hi hh hsrc hact (hstep.log_origin
        (hok.nodes i hi).core.logs.ordered.indexed (hok.input hsrc).2.1 he)
    | restart _ hcore _ =>
      rw [hcore] at he
      exact (hv.logs i hi e he).cons
  · cases hm.node i with
    | same hn => exact (hv.pending i hi commit (core_eq hn ▸ hc)).cons
    | callback hh hsrc hstep _ => exact hv.origin hi hh hsrc hact (hstep.pending_origin hc)
    | restart _ hcore _ =>
      rw [hcore] at hc
      cases hc
  · cases hm.packet hok hp with
    | old hp => exact (hv.requests p hp request hb hne).cons
    | @sent i inp client net hi _ hsend =>
      generalize s'.1.core i = c' at hsend
      cases hsend with
      | appendEntries _ _ =>
        cases hb
        have hfrom := (hok.nodes i hi).core.fromView
        exact (hv.view hi (List.mem_of_getElem? ((hfrom _).entry hne).1)).cons
      | _ => cases hb
  · have hold : effect ∈ (s.1.nodes i).visible →
        ∃ e : LogEntry, e.id = id ∧ e.command = command ∧ Proposed cfg (s' :: s :: h) e := by
      intro he
      obtain ⟨e, h1, h2, hp⟩ := hv.notices i hi effect he id command ha
      exact ⟨e, h1, h2, hp.cons⟩
    cases hm.node i with
    | same hn => exact hold (hn ▸ he)
    | callback hh hsrc hstep hvis =>
      obtain ⟨e, h1, h2, ho⟩ := hstep.announced_origin
        (hok.nodes i hi).core.logs.ordered.indexed (hok.input hsrc).2.1 (hvis ▸ he) ha
      exact ⟨e, h1, h2, hv.origin hi hh hsrc hact ho⟩
    | restart _ _ hvis =>
      rw [hvis] at he
      cases he

theorem Valid.of_run (hr : RecordedRun cfg (s :: h)) : Valid cfg s.1 (s :: h) := by
  refine hr.history (P := fun | [] => True | s :: h => Valid cfg s.1 (s :: h)) (Valid.init cfg)
    fun s a s' h hr hv _ hs => ?_
  exact hv.step (RecordedRun.run hr |>.ok s.1 (.head _)) hs

/-! ## Counting commands -/

/-- A user passes a command to a node. -/
def isCommand : Action → Bool
  | .commitCommand _ _ => true
  | _ => false

/-- The number of commands that users have passed to the nodes. -/
def commands (as : List Action) : Nat := as.countP isCommand

/-- The actions of an earlier moment are a part of those of a later one. -/
theorem actions_newest (hr : RecordedRun cfg (s :: h)) {t : Cluster × List Action}
    (ht : t ∈ s :: h) : t.2 <:+ s.2 := by
  have hp := hr.pairwise (R := fun t t' : Cluster × List Action => t.2 <:+ t'.2)
    (fun _ _ _ h1 h2 => h1.trans h2) fun t a t' _ _ _ hs => by
      rw [(Lib.System.record_step.1 hs).2]
      exact List.suffix_cons ..
  exact Lib.System.le_newest hp (fun _ => List.suffix_rfl) ht

/-- The log of a moment, when all earlier ones are within the commands. -/
theorem length_le_commands (hr : RecordedRun cfg (s :: h))
    (hall : ∀ t ∈ h, ∀ i ∈ cfg.ids, (t.1.core i).logs.length ≤ commands t.2) :
    ∀ i ∈ cfg.ids, (s.1.core i).logs.length ≤ commands s.2 := by
  intro i hi
  have hok := hr.run.ok s.1 (.head _)
  cases hl : (s.1.core i).logs.getLast? with
  | none =>
    rw [List.getLast?_eq_none_iff.1 hl]
    exact Nat.zero_le _
  | some e =>
    -- the last entry was proposed at an earlier moment `t`
    have hid : e.id + 1 = (s.1.core i).logs.length :=
      (hok.nodes i hi).core.logs.ordered.indexed.getLast hl
    obtain ⟨t', t, h', j, command, hsuf, hj, hact, -, rfl, -⟩ :=
      (Valid.of_run hr).logs i hi e (List.mem_of_getLast? hl)
    have ht : t ∈ h := by
      rcases List.suffix_cons_iff.1 hsuf with heq | hsuf
      · exact (List.cons.inj heq).2 ▸ .head _
      · exact hsuf.subset (.tail _ (.head _))
    have hle := hall t ht j hj
    have hmono := (actions_newest hr (hsuf.subset (.head _))).sublist.countP_le (p := isCommand)
    rw [hact, List.countP_cons_of_pos rfl] at hmono
    change (t.1.core j).logs.length + 1 = _ at hid
    unfold commands at hle ⊢
    omega

end Cluster

/-- **Nothing is made up.** In every reachable state, the entries of the logs, the pending commits
and the entries of the requests in flight have been proposed by users of leaders, and so have the
commands that nodes announce as committed or acknowledge. -/
theorem entries_proposed {cfg : Config} {s : Cluster × List Action}
    {h : List (Cluster × List Action)} (hr : RecordedRun cfg (s :: h)) :
    (∀ i ∈ cfg.ids, ∀ e ∈ (s.1.nodes i).store.logs, Cluster.Proposed cfg (s :: h) e) ∧
    (∀ i ∈ cfg.ids, ∀ commit ∈ (s.1.nodes i).pendingCommit,
      Cluster.Proposed cfg (s :: h) commit.log) ∧
    (∀ p ∈ s.1.net, ∀ request, p.body = .appendEntries request → request.entries ≠ [] →
      Cluster.Proposed cfg (s :: h) ⟨request.leaderCommit, request.term, some request.entries⟩) ∧
    ∀ i ∈ cfg.ids, ∀ id command,
      (.committed id command ∈ (s.1.nodes i).trace ∨
        ∃ promise, .resolved promise ⟨id, command, true⟩ ∈ (s.1.nodes i).trace) →
      ∃ e : LogEntry, e.id = id ∧ e.command = command ∧ Cluster.Proposed cfg (s :: h) e := by
  have hv := Cluster.Valid.of_run hr
  refine ⟨hv.logs, hv.pending, hv.requests, fun i hi id command he => ?_⟩
  rcases he with he | ⟨promise, he⟩
  · exact hv.notices i hi _ (List.mem_filter.2 ⟨he, rfl⟩) id command (.inl rfl)
  · exact hv.notices i hi _ (List.mem_filter.2 ⟨he, rfl⟩) id command (.inr ⟨promise, rfl⟩)

/-- Two nodes: the user of node 0 commits `[7]`, and node 1 announces it. -/
theorem entries_proposed_announced :
    ∃ s h, RecordedRun (.range 2 (by decide)) (s :: h) ∧
      .committed 0 (some [7]) ∈ (s.1.nodes 1).trace ∧
      ∃ e : LogEntry, e.id = 0 ∧ e.command = some [7] ∧
        Cluster.Proposed (.range 2 (by decide)) (s :: h) e := by
  obtain ⟨h, hr, hc⟩ := Lib.System.exists_run
    (S := (Cluster.system (.range 2 (by decide))).record) (fun _ _ => True)
    [.electionTimer 0, .deliver 0, .deliver 0, .commitCommand 0 [7], .broadcastTimer 0,
      .deliver 0, .deliver 0, .broadcastTimer 0, .deliver 0]
    (fun
      | s :: _ => decide (.committed 0 (some [7]) ∈ (s.1.nodes 1).trace)
      | [] => false) (by decide +kernel)
  split at hc
  · rename_i s h
    have he := of_decide_eq_true hc
    exact ⟨s, h, hr, he, (entries_proposed hr).2.2.2 1 (by decide) 0 (some [7]) (.inl he)⟩
  · cases hc

/-- **Logs are within the commands.** In every reachable state, whatever has been lost or restarted,
no log has more entries than users have passed commands to the cluster. -/
theorem logs_within_commands {cfg : Config} {h : List (Cluster × List Action)}
    (hr : RecordedRun cfg h) :
    ∀ s ∈ h, ∀ i ∈ cfg.ids, (s.1.nodes i).getCommandsSize ≤ Cluster.commands s.2 := by
  refine hr.history (P := fun h => ∀ t ∈ h, ∀ i ∈ cfg.ids,
    (t.1.core i).logs.length ≤ Cluster.commands t.2) (fun t ht i _ => ?_)
    fun s a s' h hr hall ha hs => ?_
  · rw [List.mem_singleton.1 ht,
      show (Cluster.system cfg).record.init.1 = Cluster.init cfg from rfl, Cluster.init_core]
    exact Nat.zero_le _
  · refine List.forall_mem_cons.2 ⟨?_, hall⟩
    exact Cluster.length_le_commands (.step hr ha hs) hall

/-- Two nodes: of two commands one is lost with the restart of the node it was passed to. -/
theorem logs_within_commands_lost_command :
    ∃ h, RecordedRun (.range 2 (by decide)) h ∧
      ∃ s ∈ h, Cluster.commands s.2 = 2 ∧ (s.1.nodes 1).getCommandsSize = 1 ∧
        (s.1.nodes 0).getCommandsSize ≤ 2 := by
  obtain ⟨h, hr, hc⟩ := Lib.System.exists_run
    (S := (Cluster.system (.range 2 (by decide))).record) (fun _ _ => True)
    [.electionTimer 0, .deliver 0, .deliver 0, .commitCommand 0 [7], .broadcastTimer 0,
      .deliver 0, .deliver 0, .broadcastTimer 0, .deliver 0, .commitCommand 0 [8], .restart 0]
    (fun h => h.any fun s => decide (Cluster.commands s.2 = 2 ∧
      (s.1.nodes 1).getCommandsSize = 1)) (by decide +kernel)
  obtain ⟨s, hs, hc⟩ := List.any_eq_true.1 hc
  obtain ⟨h2, h1⟩ := of_decide_eq_true hc
  exact ⟨h, hr, s, hs, h2, h1, h2 ▸ logs_within_commands hr s hs 0 (by decide)⟩

end Foros
