import Foros.Cluster.Proof.Matching

/-!
# Ballots

The log of a candidate stays as it is until the candidate leads, as long as no node handles an entry
of an older term (`StandLe`), so a request for votes speaks about the log the leader starts with.
Behind every vote there is a candidate whose log ends no earlier and in no older term than the
voter's (`backed`), provided that no vote is given to a candidate whose last entry is of an older
term: `vote` compares the indices only (`Node.VotesOlder`).
-/

namespace Foros

/-- A node handles an entry of an older term. -/
def Node.Stale (n : Node) : Input → Prop
  | .appendEntries request => request.entries ≠ [] ∧ request.term < n.store.currentTerm
  | _ => False

/-- A node gives its vote to a candidate whose last entry is of an older term than its own. -/
def Node.VotesOlder (n : Node) : Input → Prop
  | .requestVote request =>
    (n.store.currentTerm < request.term ∨
      n.store.currentTerm = request.term ∧ n.store.voted = false) ∧
    ∃ log ∈ n.store.logs.getLast?, log.id ≤ request.lastDataIndex ∧ request.loatDataTerm < log.term
  | _ => False

instance (n : Node) (input : Input) : Decidable (n.Stale input) := by
  refine Input.casesOn input ?_ ?_ ?_ ?_ ?_ ?_ ?_ <;> intros <;> dsimp only [Node.Stale] <;>
    infer_instance

instance (n : Node) (input : Input) : Decidable (n.VotesOlder input) := by
  refine Input.casesOn input ?_ ?_ ?_ ?_ ?_ ?_ ?_ <;> intros <;> dsimp only [Node.VotesOlder] <;>
    infer_instance

/-- `q` ends no earlier, and in no older term, than `p`. -/
def Logs.UpTo (p q : List LogEntry) : Prop :=
  ∀ e ∈ p.getLast?, e.id ≤ (q.getLast?.map (·.id)).getD 0 ∧
    e.term ≤ (q.getLast?.map (·.term)).getD 0

theorem Logs.upTo_refl (p : List LogEntry) : Logs.UpTo p p := by
  intro e he
  rw [Option.mem_def.1 he]
  exact ⟨Nat.le_refl _, Nat.le_refl _⟩

namespace Cluster

variable {cfg : Config} {s s' : Cluster} {a : Action} {h : List Cluster}

/-- No term wraps, no entry of an older term is handled, and no vote goes to an older log. -/
def Balloted (s : Cluster) (a : Action) : Prop :=
  Avoids Node.Wraps s a ∧ Avoids Node.Stale s a ∧ Avoids Node.VotesOlder s a

instance (s : Cluster) (a : Action) : Decidable (Balloted s a) := by
  unfold Balloted
  infer_instance

theorem Balloted.steady (hb : Balloted s a) : Steady s a := by
  refine ⟨hb.1, fun i inp hh hd => hb.2.1 i inp hh ?_⟩
  cases inp with
  | appendEntries request => exact hd.2
  | _ => exact hd

/-- An entry that is appended is not of an older term. -/
theorem Balloted.term_le (hb : Balloted s a) {j : Nat} {request : AppendEntriesRequest}
    (hQ : Handles s a j request) (hne : request.entries ≠ []) :
    (s.core j).term ≤ request.term := by
  by_contra hlt
  exact hb.2.1 j _ hQ.1 ⟨hne, Nat.lt_of_not_le hlt⟩

/-! ## Candidates -/

/-- `c'` comes after `c`, and the log of a candidate or leader has only grown. -/
structure StandLe (c c' : Core) : Prop extends Core.VoteLe c c' where
  logs : c.term = c'.term → c'.state.rank ≤ 1 → c.logs <+: c'.logs

theorem StandLe.refl (c : Core) : StandLe c c := ⟨.refl c, fun _ _ => List.prefix_refl _⟩

theorem StandLe.trans {c c' c'' : Core} (h : StandLe c c') (h' : StandLe c' c'') :
    StandLe c c'' := by
  refine ⟨h.toVoteLe.trans h'.toVoteLe, fun ht hr => ?_⟩
  have h1 := h.term_le
  have h2 := h'.term_le
  have hr' := h'.rank (by omega)
  exact (h.logs (by omega) (by omega)).trans (h'.logs (by omega) hr)

theorem standLe_pairwise (hr : ClusterRun cfg Balloted h) :
    h.Pairwise fun newer older => ∀ i ∈ cfg.ids, StandLe (older.core i) (newer.core i) := by
  refine hr.pairwise (fun _ _ _ h1 h2 i hi => (h1 i hi).trans (h2 i hi))
    fun s a s' h hr ha hs i hi => ?_
  have hok := ClusterRun.ok hr s (.head _)
  refine ⟨(hok.move hs).1.voteLe hok ha.1 i hi, fun _ hrank => ?_⟩
  cases growth (hr.mono fun _ _ hb => hb.steady) ha.steady hs i hi with
  | keep hl _ => rw [hl]
  | propose _ _ _ _ _ hl _ => rw [hl]
  | commit _ _ _ _ hl _ _ =>
    rw [hl]
    exact List.prefix_append ..
  | append hQ hne _ hold _ _ _ =>
    have := ha.term_le hQ hne
    omega

/-! ## Requests for votes -/

/-- Node `i` was a candidate, and asked for votes with the request. -/
def Asked (h : List Cluster) (i : Nat) (request : RequestVoteRequest) : Prop :=
  ∃ t ∈ h, (t.core i).state.rank ≤ 1 ∧ request = (t.core i).voteRequest

theorem Asked.cons {i : Nat} {request : RequestVoteRequest} (ha : Asked h i request) :
    Asked (s :: h) i request := by
  obtain ⟨t, ht, hrest⟩ := ha
  exact ⟨t, .tail _ ht, hrest⟩

/-- The log of the voter, and the log of the candidate it voted for. -/
def Backed (h : List Cluster) (T c v : Nat) : Prop :=
  ∃ t ∈ h, ∃ u ∈ h, (t.core v).term = T ∧ (u.core c).term = T ∧ (u.core c).state.rank ≤ 1 ∧
    Logs.UpTo (t.core v).logs (u.core c).logs

theorem Backed.cons {T c v : Nat} (hb : Backed h T c v) : Backed (s :: h) T c v := by
  obtain ⟨t, ht, u, hu, hrest⟩ := hb
  exact ⟨t, .tail _ ht, u, .tail _ hu, hrest⟩

/-- The invariant of a history that ends in `s`. -/
structure Ballots (cfg : Config) (s : Cluster) (h : List Cluster) : Prop where
  asked : ∀ p ∈ s.net, ∀ request, p.body = .requestVote request → Asked (s :: h) p.src request
  backed : ∀ v ∈ cfg.ids, ∀ T c, Granted (s :: h) T c v → Backed (s :: h) T c v

theorem Ballots.init (cfg : Config) : Ballots cfg (Cluster.init cfg) [] := by
  refine ⟨fun p hp => ?_, fun v _ T c hg => ?_⟩
  · simp [Cluster.init] at hp
  · obtain ⟨t, ht, -, hv, -⟩ := hg
    rw [List.mem_singleton.1 ht, init_core] at hv
    cases hv

theorem Ballots.asked_step (hr : ClusterRun cfg Balloted (s :: h)) (hb : Ballots cfg s h)
    (hs : step cfg s a = some s') :
    ∀ p ∈ s'.net, ∀ request, p.body = .requestVote request →
      Asked (s' :: s :: h) p.src request := by
  intro p hp request hbody
  have hok := ClusterRun.ok hr s (.head _)
  cases (hok.move hs).1 with
  | @callback i inp client net es hi _ hsrc hstep _ _ _ hnet =>
    rw [hnet] at hp
    rcases List.mem_append.1 hp with hp | hp
    · exact (hb.asked p ((hok.input hsrc).2.2.1 p hp) request hbody).cons
    · generalize hc' : s'.core i = c' at hstep
      cases sends_of_step hstep hp with
      | requestVote _ =>
        cases hbody
        refine ⟨s', .head _, ?_, ?_⟩
        · rw [hc']
          exact (s.core i).campaign_rank
        · rw [hc']
      | _ => cases hbody
  | drop _ _ _ hnet =>
    rw [hnet] at hp
    exact (hb.asked p (List.mem_of_mem_eraseIdx hp) request hbody).cons
  | restart _ _ _ _ _ _ hnet =>
    rw [hnet] at hp
    exact (hb.asked p hp request hbody).cons

/-- A grant goes to a log that ends no earlier and in no older term. -/
theorem upTo_of_grant {c : Core} {n : Node} (hn : n.core = c) {request : RequestVoteRequest}
    (hg : (c.observe request.term).Grants request) (hv : ¬ n.VotesOlder (.requestVote request))
    {u : Core} (hu : request = u.voteRequest) : Logs.UpTo c.logs u.logs := by
  obtain ⟨hge, hfree, hlast⟩ := hg
  rw [Core.observe_logs] at hlast
  intro e he
  have hid := hlast e he
  refine ⟨by rw [hu] at hid; exact hid, ?_⟩
  by_contra hlt
  subst hn
  refine hv ⟨?_, e, he, hid, ?_⟩
  · rcases Nat.lt_or_ge n.core.term request.term with hlt | hle
    · exact .inl hlt
    · rw [Core.observe_of_le hle] at hge hfree
      exact .inr ⟨Nat.le_antisymm hge hle, hfree⟩
  · rw [hu]
    exact Nat.lt_of_not_le hlt

theorem Ballots.backed_step (hr : ClusterRun cfg Balloted (s :: h)) (hb : Ballots cfg s h)
    (ha : Balloted s a) (hs : step cfg s a = some s') :
    ∀ v ∈ cfg.ids, ∀ T c, Granted (s' :: s :: h) T c v → Backed (s' :: s :: h) T c v := by
  rintro v hv T c ⟨t, ht, hT, hvote, hfor⟩
  have hok := ClusterRun.ok hr s (.head _)
  rcases List.mem_cons.1 ht with rfl | ht
  swap
  · exact (hb.backed v hv T c ⟨t, ht, hT, hvote, hfor⟩).cons
  -- a vote that stood before the step
  have hold : (s.core v).voted = true → (s.core v).votedFor = c → (s.core v).term = T →
      Backed (t :: s :: h) T c v := fun h1 h2 h3 =>
    (hb.backed v hv T c ⟨s, .head _, h3, h1, h2⟩).cons
  have hsame : t.nodes v = s.nodes v → Backed (t :: s :: h) T c v := by
    intro he
    have hcore : t.core v = s.core v := by
      unfold core
      rw [he]
    rw [hcore] at hT hvote hfor
    exact hold hvote hfor hT
  cases (hok.move hs).1 with
  | @callback i inp client net es hi hh hsrc hstep _ hothers _ _ =>
    by_cases hvi : v = i
    · subst hvi
      rcases hstep.vote hvote with ⟨h1, h2, h3⟩ | hcamp | ⟨request, rfl, hg, h1, h2, h3⟩
      · exact hold h1 (h2.trans hfor) (h3.trans hT)
      · have hcv : c = v := by
          rw [hcamp, Core.campaign_votedFor] at hfor
          exact hfor.symm.trans (hok.nodes v hv).nodeId
        subst hcv
        refine ⟨t, .head _, t, .head _, hT, hT, ?_, Logs.upTo_refl _⟩
        rw [hcamp]
        exact (s.core c).campaign_rank
      · obtain ⟨p, hbody, hof⟩ := hsrc.requestVote
        obtain ⟨u, hu, hrank, hreq⟩ := hb.asked p hof.mem request hbody
        have hmsg := (hok.packets p hof.mem).body
        rw [hbody] at hmsg
        obtain rfl : p.src = c := hmsg.1.symm.trans (h1.symm.trans hfor)
        refine ⟨t, .head _, u, .tail _ hu, hT, ?_, hrank, ?_⟩
        · rw [← hT, h2, hreq]
          rfl
        · rw [h3]
          exact upTo_of_grant rfl hg (ha.2.2 v _ hh) hreq
    · exact hsame (hothers v hvi)
  | drop _ hn _ _ => exact hsame (congrFun hn v)
  | @restart i hi _ hcore _ hothers _ _ =>
    by_cases hvi : v = i
    · subst hvi
      rw [hcore] at hT hvote hfor
      exact hold hvote hfor hT
    · exact hsame (hothers v hvi)

/-- **Behind every vote there is a candidate whose log is up to the voter's.** -/
theorem Ballots.of_run (hr : ClusterRun cfg Balloted (s :: h)) : Ballots cfg s h :=
  hr.history (P := fun | [] => True | s :: h => Ballots cfg s h) (Ballots.init cfg)
    fun _ _ _ _ hr hb ha hs => ⟨hb.asked_step hr hs, hb.backed_step hr ha hs⟩

end Cluster

end Foros
