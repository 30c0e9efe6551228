import Foros.Cluster.Proof.Election
import Foros.Lib.Chain
import Foros.Raft.Proof.Growth

/-!
# Log matching

`Led cfg h T V`: at some moment of the history the leader of the term `T` had the view `V`. A term
has one leader and its view grows, so the views of a term are comparable (`Led.comparable`). Every
log is made of prefixes of such views (`Matching`): a follower takes an entry only after a
predecessor of the same term, and so has the sender's entries below it. Two logs with the same term
at the same index therefore agree up to there (`log_matching`).
-/

namespace Foros

namespace Cluster

variable {cfg : Config} {s s' : Cluster} {a : Action} {h : List Cluster}

/-- No term wraps, and no leader handles an entry of an older term. -/
def Steady (s : Cluster) (a : Action) : Prop := Avoids Node.Wraps s a ∧ Avoids Node.Deposed s a

instance (s : Cluster) (a : Action) : Decidable (Steady s a) := by
  unfold Steady
  infer_instance

/-! ## Steps and the log -/

/-- The step hands the request of a packet in flight to node `j`. -/
def Handles (s : Cluster) (a : Action) (j : Nat) (request : AppendEntriesRequest) : Prop :=
  s.handled a = some (j, .appendEntries request) ∧
    ∃ p ∈ s.net, p.dst = j ∧ p.body = .appendEntries request

theorem Move.growth (hok : Ok cfg s) (hset : ∀ i ∈ cfg.ids, (s.core i).Settled)
    (hm : Move cfg s a s') (hd : Avoids Node.Deposed s a) :
    ∀ j ∈ cfg.ids, Core.Growth (Handles s a j) (s.core j) (s'.core j) ∧ (s'.core j).Settled := by
  intro j hj
  have hsame : s'.nodes j = s.nodes j →
      Core.Growth (Handles s a j) (s.core j) (s'.core j) ∧ (s'.core j).Settled := by
    intro he
    unfold core
    rw [he]
    exact ⟨.refl _, hset j hj⟩
  cases hm with
  | @callback i inp client net es hi hh hsrc hstep _ hothers _ _ =>
    by_cases hji : j = i
    · subst hji
      obtain ⟨hg, hs'⟩ := hstep.growth (hok.nodes j hj).core (hok.input hsrc).2.1 (hset j hj)
        fun request he hbad => hd j inp hh (by rw [he]; exact hbad)
      refine ⟨hg.mono fun request he => ?_, hs'⟩
      subst he
      obtain ⟨p, hb, hof⟩ := hsrc.appendEntries
      exact ⟨hh, p, hof.mem, hof.dst, hb⟩
    · exact hsame (hothers j hji)
  | drop _ hn _ _ => exact hsame (by rw [hn])
  | @restart i hi _ hcore _ hothers _ _ =>
    by_cases hji : j = i
    · subst hji
      have hp : (s'.core j).pending = none := by rw [hcore]; rfl
      have hl : (s'.core j).logs = (s.core j).logs := by rw [hcore]; rfl
      refine ⟨.keep hl (.inr ⟨?_, ?_⟩), Core.settled_of_none hp⟩
      · rw [Core.view_of_none hp, hl]
      · rw [hcore]
        exact fun he => by cases he
    · exact hsame (hothers j hji)

theorem settled (hr : ClusterRun cfg Steady h) : ∀ s ∈ h, ∀ i ∈ cfg.ids, (s.core i).Settled := by
  have hall := hr.forall_mem (P := fun s => Ok cfg s ∧ ∀ i ∈ cfg.ids, (s.core i).Settled)
    ⟨Ok.init cfg, fun i hi => Core.settled_of_none (by
      rw [show (system cfg).init = Cluster.init cfg from rfl, init_core])⟩
    fun s a s' ⟨hok, hset⟩ ha hs => by
      obtain ⟨hm, hok'⟩ := hok.move hs
      exact ⟨hok', fun i hi => (hm.growth hok hset ha.2 i hi).2⟩
  exact fun s hs => (hall s hs).2

/-- What a step of a steady run does to the log of a node. -/
theorem growth (hr : ClusterRun cfg Steady (s :: h)) (ha : Steady s a)
    (hs : step cfg s a = some s') :
    ∀ j ∈ cfg.ids, Core.Growth (Handles s a j) (s.core j) (s'.core j) := by
  intro j hj
  have hok := ClusterRun.ok hr s (.head _)
  exact ((hok.move hs).1.growth hok (settled hr s (.head _)) ha.2 j hj).1

/-! ## Views of a leader -/

/-- `c'` comes after `c`, and the view of a leader has grown. -/
structure GrowLe (c c' : Core) : Prop extends Core.VoteLe c c' where
  view : c.term = c'.term → c.state = .leader → c'.state = .leader → c.view <+: c'.view

theorem GrowLe.refl (c : Core) : GrowLe c c := ⟨.refl c, fun _ _ _ => List.prefix_refl _⟩

theorem GrowLe.trans {c c' c'' : Core} (h : GrowLe c c') (h' : GrowLe c' c'') : GrowLe c c'' := by
  refine ⟨h.toVoteLe.trans h'.toVoteLe, fun ht hl hl'' => ?_⟩
  have h1 := h.term_le
  have h2 := h'.term_le
  -- the states between two moments of a leadership are the leader's
  have hl' : c'.state = .leader := by
    have hr := h.rank (by omega)
    have hr' := h'.rank (by omega)
    rw [hl] at hr
    rw [hl''] at hr'
    cases hc : c'.state <;> simp [hc, StateType.rank] at hr hr' ⊢
  exact (h.view (by omega) hl hl').trans (h'.view (by omega) hl' hl'')

theorem growLe_pairwise (hr : ClusterRun cfg Steady h) :
    h.Pairwise fun newer older => ∀ i ∈ cfg.ids, GrowLe (older.core i) (newer.core i) := by
  refine hr.pairwise (fun _ _ _ h1 h2 i hi => (h1 i hi).trans (h2 i hi))
    fun s a s' h hr ha hs i hi => ?_
  have hok := ClusterRun.ok hr s (.head _)
  exact ⟨(hok.move hs).1.voteLe hok ha.1 i hi, fun _ _ hl' => (growth hr ha hs i hi).view_le hl'⟩

/-- The view of a leader of the term `T`, at some moment. -/
def Led (cfg : Config) (h : List Cluster) (T : Nat) (V : List LogEntry) : Prop :=
  ∃ s ∈ h, ∃ a ∈ cfg.ids, (s.core a).state = .leader ∧ (s.core a).term = T ∧ (s.core a).view = V

theorem Led.mono {h' : List Cluster} {T : Nat} {V : List LogEntry} (hl : Led cfg h T V)
    (hsub : ∀ s ∈ h, s ∈ h') : Led cfg h' T V := by
  obtain ⟨s, hs, hrest⟩ := hl
  exact ⟨s, hsub s hs, hrest⟩

/-- **The views of a term are comparable.** -/
theorem Led.comparable (hr : ClusterRun cfg Steady h) (T : Nat) (V V' : List LogEntry)
    (hl : Led cfg h T V) (hl' : Led cfg h T V') : V <+: V' ∨ V' <+: V := by
  obtain ⟨s, hs, a, ha, hst, hT, rfl⟩ := hl
  obtain ⟨s', hs', b, hb, hst', hT', rfl⟩ := hl'
  have hab : a = b := leaders_eq (hr.mono fun _ _ hok => hok.1) hs hs' ha hb hst hst' (by omega)
  subst hab
  rcases Lib.System.comparable (growLe_pairwise hr) (fun _ _ _ => .refl _) hs hs' with hle | hle
  · exact .inl ((hle a ha).view (by omega) hst hst')
  · exact .inr ((hle a ha).view (by omega) hst' hst)

/-! ## Chained logs -/

/-- The log is made of prefixes of views of leaders. -/
abbrev Chained (cfg : Config) (h : List Cluster) (q : List LogEntry) : Prop :=
  Lib.Chained LogEntry.term (Led cfg h) q

/-- Node `i` was a leader, and built the request from its view. -/
def Sent (h : List Cluster) (i : Nat) (request : AppendEntriesRequest) : Prop :=
  ∃ t ∈ h, (t.core i).state = .leader ∧ FromView (t.core i).view request

theorem Sent.cons {i : Nat} {request : AppendEntriesRequest} (hs : Sent h i request) :
    Sent (s :: h) i request := by
  obtain ⟨t, ht, hrest⟩ := hs
  exact ⟨t, .tail _ ht, hrest⟩

/-- The invariant of a history that ends in `s`. -/
structure Matching (cfg : Config) (s : Cluster) (h : List Cluster) : Prop where
  views : ∀ t ∈ s :: h, ∀ i ∈ cfg.ids, Chained cfg (s :: h) (t.core i).view
  sent : ∀ p ∈ s.net, ∀ request, p.body = .appendEntries request → Sent (s :: h) p.src request

theorem Chained.agree (hr : ClusterRun cfg Steady h) {p q : List LogEntry} (hp : Chained cfg h p)
    (hq : Chained cfg h q) : Logs.Agree p q :=
  fun _ _ _ he he' hterm => Lib.Chained.agree (Led.comparable hr) hp hq he he' hterm

theorem Matching.init (cfg : Config) : Matching cfg (Cluster.init cfg) [] := by
  refine ⟨fun t ht i hi => ?_, fun p hp => ?_⟩
  · have hv : (t.core i).view = [] := by
      rw [List.mem_singleton.1 ht, init_core, Core.view_of_none rfl]
    rw [hv]
    exact Lib.Chained.nil
  · simp [Cluster.init] at hp

/-- Views after a step. -/
theorem Matching.view_step (hr : ClusterRun cfg Steady (s :: h)) (hm : Matching cfg s h)
    (ha : Steady s a) (hs : step cfg s a = some s') {i : Nat} (hi : i ∈ cfg.ids) :
    Chained cfg (s' :: s :: h) (s'.core i).view := by
  have hok := ClusterRun.ok hr s (.head _)
  have hmono : ∀ {q}, Chained cfg (s :: h) q → Chained cfg (s' :: s :: h) q := fun hq =>
    Lib.Chained.mono hq fun _ _ hl => hl.mono fun _ hm => .tail _ hm
  have hold := hmono (hm.views s (.head _) i hi)
  have hlogs := Lib.Chained.of_prefix hold (s.core i).logs_prefix_view
  -- an entry the leader adds is the end of its own view
  have hpush : ∀ log : LogEntry, (s'.core i).state = .leader → (s'.core i).term = log.term →
      (s'.core i).view = (s.core i).logs ++ [log] →
      Chained cfg (s' :: s :: h) (s'.core i).view := by
    intro log hl ht hv
    rw [hv]
    exact Lib.Chained.push hlogs ⟨s', .head _, i, hi, hl, ht, hv⟩
  cases growth hr ha hs i hi with
  | keep _ hv =>
    rcases hv with hv | ⟨hv, -⟩
    · rwa [hv]
    · rwa [hv]
  | @propose log _ hl' ht hlt _ _ hv' => exact hpush log hl' (ht.trans hlt.symm) hv'
  | @commit log _ hl' ht hlt hlogs' hv' _ =>
    exact hpush log hl' (ht.trans hlt.symm) (hv'.trans hlogs')
  | @append request hQ _ _ _ _ hlogs' hv' =>
    rw [hv', hlogs']
    obtain ⟨-, p, hp, -, hb⟩ := hQ
    obtain ⟨t, ht, -, hfrom⟩ := hm.sent p hp request hb
    have hview := hm.views t ht p.src (hok.packets p hp).src
    have hcur := Lib.Chained.of_prefix (hm.views s (.head _) i hi) (s.core i).logs_prefix_view
    have hi' := (hok.nodes i hi).core.logs.ordered.indexed
    rcases hfrom.append_prefix hi' (Chained.agree hr hcur hview) with hpre | hpre
    · exact Lib.Chained.of_prefix hlogs hpre
    · exact Lib.Chained.of_prefix (hmono hview) hpre

theorem Matching.sent_step (hr : ClusterRun cfg Steady (s :: h)) (hm : Matching cfg s h)
    (hs : step cfg s a = some s') :
    ∀ p ∈ s'.net, ∀ request, p.body = .appendEntries request →
      Sent (s' :: s :: h) p.src request := by
  intro p hp request hb
  have hok := ClusterRun.ok hr s (.head _)
  cases (hok.move hs).1 with
  | @callback i inp client net es hi _ hsrc hstep _ _ _ hnet =>
    rw [hnet] at hp
    rcases List.mem_append.1 hp with hp | hp
    · exact (hm.sent p ((hok.input hsrc).2.2.1 p hp) request hb).cons
    · generalize s'.core i = c' at hstep
      cases sends_of_step hstep hp with
      | appendEntries hl _ =>
        cases hb
        exact ⟨s, .tail _ (.head _), hl, (hok.nodes i hi).core.fromView _⟩
      | _ => cases hb
  | drop _ _ _ hnet =>
    rw [hnet] at hp
    exact (hm.sent p (List.mem_of_mem_eraseIdx hp) request hb).cons
  | restart _ _ _ _ _ _ hnet =>
    rw [hnet] at hp
    exact (hm.sent p hp request hb).cons

/-- **Every view is made of prefixes of views of leaders.** -/
theorem Matching.of_run (hr : ClusterRun cfg Steady (s :: h)) : Matching cfg s h := by
  refine hr.history (P := fun | [] => True | s :: h => Matching cfg s h) (Matching.init cfg)
    fun s a s' h hr hm ha hs => ?_
  refine ⟨fun t ht i hi => ?_, hm.sent_step hr hs⟩
  rcases List.mem_cons.1 ht with rfl | ht
  · exact hm.view_step hr ha hs hi
  · exact Lib.Chained.mono (hm.views t ht i hi) fun _ _ hl => hl.mono fun _ hm => .tail _ hm

theorem chained (hr : ClusterRun cfg Steady h) {t : Cluster} (ht : t ∈ h) {i : Nat}
    (hi : i ∈ cfg.ids) : Chained cfg h (t.core i).view := by
  cases h with
  | nil => cases ht
  | cons s h => exact (Matching.of_run hr).views t ht i hi

end Cluster

/-- **Log matching.** In a run in which no leader handles an entry of an older term, two logs that
hold entries of the same term at the same index are identical up to there. -/
theorem log_matching {cfg : Config} {h : List Cluster}
    (hr : ClusterRun cfg (Cluster.Avoids Node.Deposed) h)
    (hterm : ∀ s ∈ h, ∀ i ∈ cfg.ids, (s.nodes i).store.currentTerm < 2 ^ 64 - 1) :
    ∀ s ∈ h, ∀ a ∈ cfg.ids, ∀ b ∈ cfg.ids, ∀ (k : Nat) (e e' : LogEntry),
      (s.nodes a).store.logs[k]? = some e → (s.nodes b).store.logs[k]? = some e' →
      e.term = e'.term →
      ∀ j ≤ k, (s.nodes a).store.logs[j]? = (s.nodes b).store.logs[j]? := by
  intro s hs a ha b hb k e e' he he' hkey j hj
  have hr' : ClusterRun cfg Cluster.Steady h :=
    (Cluster.avoids_wraps hr hterm).mono fun _ _ hok => ⟨hok.2, hok.1⟩
  have hlogs : ∀ i ∈ cfg.ids, Cluster.Chained cfg h (s.core i).logs := fun i hi =>
    Lib.Chained.of_prefix (Cluster.chained hr' hs hi) (s.core i).logs_prefix_view
  have htake := Cluster.Chained.agree hr' (hlogs a ha) (hlogs b hb) k e e' he he' hkey
  have hget := congrArg (fun l : List LogEntry => l[j]?) htake
  simp only [List.getElem?_take_of_lt (show j < k + 1 by omega)] at hget
  exact hget

/-- Two nodes: the second entry of term 1 has reached both logs. -/
theorem log_matching_second_entry :
    ∃ h, ClusterRun (.range 2 (by decide)) (Cluster.Avoids Node.Deposed) h ∧
      ∃ s ∈ h, (s.nodes 0).store.logs[1]? = some ⟨1, 1, some [2]⟩ ∧
        (s.nodes 1).store.logs[1]? = some ⟨1, 1, some [2]⟩ ∧
        (s.nodes 0).store.logs[0]? = (s.nodes 1).store.logs[0]? := by
  obtain ⟨h, hr, hc⟩ := Lib.System.exists_run (S := Cluster.system (.range 2 (by decide)))
    (Cluster.Avoids Node.Deposed)
    [.electionTimer 0, .deliver 0, .deliver 0, .commitCommand 0 [1], .broadcastTimer 0,
      .deliver 0, .deliver 0, .broadcastTimer 0, .deliver 0, .deliver 0, .commitCommand 0 [2],
      .broadcastTimer 0, .deliver 0, .deliver 0]
    (fun h => (h.all fun s => [0, 1].all fun i => (s.nodes i).store.currentTerm < 2 ^ 64 - 1) &&
      h.any fun s => (s.nodes 0).store.logs[1]? = some ⟨1, 1, some [2]⟩ ∧
        (s.nodes 1).store.logs[1]? = some ⟨1, 1, some [2]⟩)
    (by decide +kernel)
  simp only [Bool.and_eq_true, List.all_eq_true, List.any_eq_true, decide_eq_true_eq] at hc
  obtain ⟨hlt, s, hs, h0, h1⟩ := hc
  exact ⟨h, hr, s, hs, h0, h1,
    log_matching hr hlt s hs 0 (by decide) 1 (by decide) 1 _ _ h0 h1 rfl 0 (by decide)⟩

end Foros
