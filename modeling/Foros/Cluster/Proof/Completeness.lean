import Foros.Cluster.Proof.Ballots
import Foros.Cluster.Proof.Replication

/-!
# Leader completeness

An entry that a majority has appended is in the log of every leader of a later term
(`elected_complete`), by strong induction on that term. A voter of the leader has had the entry.
It still has it when it votes: what it was sent since then comes from leaders of terms in between,
which hold the entry (`keep_step`), and it cannot have taken the entry after its vote, when its term
was already newer (`back_step`). The leader's log ends no earlier and in no older term than the
voter's, so it holds the entry too. A request for an entry that the log holds below its end
truncates the log (`Node.Redelivers`); the result is about runs without it. A run with users who
call back shows as such a run (`leaders_complete`).
-/

namespace Foros

/-- A node is handed an entry that its log has, below its end: the entries after it are lost. -/
def Node.Redelivers (n : Node) : Input → Prop
  | .appendEntries request =>
    request.entries ≠ [] ∧ request.leaderCommit + 1 < n.store.logs.length ∧
      ∃ e ∈ n.store.logs[request.leaderCommit]?, e.term = request.term
  | _ => False

instance (n : Node) (input : Input) : Decidable (n.Redelivers input) := by
  refine Input.casesOn input ?_ ?_ ?_ ?_ ?_ ?_ ?_ <;> intros <;> dsimp only [Node.Redelivers] <;>
    infer_instance

/-! ## What a request keeps -/

section

variable {logs U V : List LogEntry} {request : AppendEntriesRequest} {e : LogEntry}

/-- Two logs that hold the same entry have the same entries below it. -/
theorem Logs.Agree.getElem? (h : Logs.Agree logs U) {i j : Nat} (he : logs[i]? = some e)
    (hU : U[i]? = some e) (hj : j ≤ i) : logs[j]? = U[j]? := by
  have hget := congrArg (fun l : List LogEntry => l[j]?) (h i e e he hU rfl)
  simpa only [List.getElem?_take_of_lt (show j < i + 1 by omega)] using hget

/-- A request built from a log that goes on as one with the entry keeps the entry. -/
theorem FromView.append_keeps (h : FromView V request) (hlogs : Logs.Ordered logs)
    (hne : request.entries ≠ []) (hV : V.take (request.leaderCommit + 1) <+: U)
    (hagree : Logs.Agree logs U) (he : logs[e.id]? = some e) (hU : U[e.id]? = some e)
    (hredel : ¬ (request.leaderCommit + 1 < logs.length ∧
      ∃ x ∈ logs[request.leaderCommit]?, x.term = request.term)) :
    e ∈ (Logs.append request logs).2 := by
  have hmem : e ∈ logs := List.mem_of_getElem? he
  obtain ⟨hent, hprev⟩ := h.entry hne
  have hview : ∀ {k : Nat} {x : LogEntry}, k ≤ request.leaderCommit → V[k]? = some x →
      U[k]? = some x := by
    intro k x hk hx
    have hlen : k < (V.take (request.leaderCommit + 1)).length := by
      have := (List.getElem?_eq_some_iff.1 hx).1
      rw [List.length_take]
      omega
    rw [Lib.getElem?_of_prefix hV hlen, List.getElem?_take_of_lt (by omega), hx]
  have htake : ∀ {k : Nat}, e.id < k → e ∈ logs.take k := fun hk =>
    List.mem_of_getElem? (by rw [List.getElem?_take_of_lt hk, he])
  have ho := Logs.append_outcome hlogs.indexed request
  generalize Logs.append request logs = r at ho ⊢
  generalize Logs.appendNotices request logs = es at ho
  cases ho with
  | ignored => exact hmem
  | confirmed _ _ => exact hmem
  | pushed _ _ => exact List.mem_append_left _ hmem
  | rolledBack hroll =>
    -- a predecessor at or below the entry would be the one the request names
    obtain ⟨-, hk, log, hlog, hterm⟩ := hroll
    obtain ⟨hidx, x, hx, hxt⟩ := hprev hk
    apply htake
    by_contra hge
    rw [hidx] at hlog hge
    have hsame := hagree.getElem? he hU (show request.leaderCommit - 1 ≤ e.id by omega)
    rw [hlog, hview (Nat.sub_le _ 1) hx] at hsame
    cases hsame
    exact hterm hxt
  | replaced hm hconf hlt =>
    refine List.mem_append_left _ (htake ?_)
    by_contra hge
    -- the entry at the request's place is the one it carries: confirmed, or delivered again
    have hsame := hagree.getElem? he hU (show request.leaderCommit ≤ e.id by omega)
    rw [hview (Nat.le_refl _) hent] at hsame
    by_cases hend : request.leaderCommit + 1 < logs.length
    · exact hredel ⟨hend, _, hsame, rfl⟩
    · refine hconf ⟨Logs.entry request, ?_, rfl, rfl, rfl⟩
      rw [List.getLast?_eq_getElem?, show logs.length - 1 = request.leaderCommit by omega]
      exact hsame

end

namespace Cluster

variable {cfg : Config} {s s' : Cluster} {a : Action} {h : List Cluster}

/-- Balloted, and no entry is delivered again below the end of a log. -/
def Safe (s : Cluster) (a : Action) : Prop := Balloted s a ∧ Avoids Node.Redelivers s a

instance (s : Cluster) (a : Action) : Decidable (Safe s a) := by
  unfold Safe
  infer_instance

theorem Safe.steady (hs : Safe s a) : Steady s a := hs.1.steady

/-! ## The moment of an election -/

/-- Node `b` becomes leader by the step from `t` to `t'`. -/
structure Elected (t t' : Cluster) (b : Nat) : Prop where
  before : (t.core b).state ≠ .leader
  after : (t'.core b).state = .leader

/-- A leader of consecutive states leads one term. -/
theorem leader_term (hok : Ok cfg s) (hs : step cfg s a = some s') {b : Nat}
    (hl : (s.core b).state = .leader) (hl' : (s'.core b).state = .leader) :
    (s'.core b).term = (s.core b).term := by
  have hsame : s'.nodes b = s.nodes b → (s'.core b).term = (s.core b).term := by
    intro he
    unfold core
    rw [he]
  cases (hok.move hs).1 with
  | @callback i inp client net es _ _ _ hstep _ hothers _ _ =>
    by_cases hbi : b = i
    · subst hbi
      rcases hstep.leader hl' with ⟨-, ht⟩ | ⟨hne, -⟩
      · exact ht
      · exact absurd hl hne
    · exact hsame (hothers b hbi)
  | drop _ hn _ _ => exact hsame (congrFun hn b)
  | @restart i _ _ hcore _ hothers _ _ =>
    by_cases hbi : b = i
    · subst hbi
      rw [hcore]
      rfl
    · exact hsame (hothers b hbi)

/-- A leader was elected, and its view goes on from the log it was elected with. -/
theorem exists_elected (hr : ClusterRun cfg Steady h) {w : Cluster} (hw : w ∈ h) {b : Nat}
    (hb : b ∈ cfg.ids) (hl : (w.core b).state = .leader) :
    ∃ t' t h', t' :: t :: h' <:+ h ∧ Elected t t' b ∧ (t'.core b).term = (w.core b).term ∧
      (t'.core b).logs <+: (w.core b).view := by
  induction hr generalizing w with
  | init =>
    rw [List.mem_singleton.1 hw, show (system cfg).init = Cluster.init cfg from rfl,
      init_core] at hl
    cases hl
  | @step s s' a h hr ha hs ih =>
    rcases List.mem_cons.1 hw with rfl | hw
    · by_cases hls : (s.core b).state = .leader
      · obtain ⟨t', t, h', hsuf, hel, hterm, hpre⟩ := ih (.head _) hls
        have hT := leader_term (ClusterRun.ok hr s (.head _)) hs hls hl
        refine ⟨t', t, h', hsuf.trans (List.suffix_cons ..), hel, hterm.trans hT.symm, ?_⟩
        exact hpre.trans ((growth hr ha hs b hb).view_le hl)
      · exact ⟨w, s, h, List.suffix_rfl, ⟨hls, hl⟩, rfl, Core.logs_prefix_view _⟩
    · obtain ⟨t', t, h', hsuf, hrest⟩ := ih hw hl
      exact ⟨t', t, h', hsuf.trans (List.suffix_cons ..), hrest⟩

/-- Nobody led the term before its leader was elected. -/
theorem Elected.first {t t' : Cluster} (hr : ClusterRun cfg Steady (t' :: t :: h)) {b : Nat}
    (hb : b ∈ cfg.ids) (hel : Elected t t' b) {V : List LogEntry} :
    ¬ Led cfg (t :: h) (t'.core b).term V := by
  rintro ⟨x, hx, c, hc, hl, hT, -⟩
  have hwraps : ClusterRun cfg (Avoids Node.Wraps) (t' :: t :: h) := hr.mono fun _ _ hok => hok.1
  obtain rfl : c = b :=
    leaders_eq hwraps (.tail _ hx) (.head _) hc hb hl hel.after hT
  have hp := List.pairwise_cons.1 (voteLe_pairwise hwraps)
  have h1 := Lib.System.le_newest hp.2 (fun _ _ _ => .refl _) hx c hc
  have h2 := hp.1 t (.head _) c hc
  -- the state between two moments of a leadership is the leader's
  have hterm : (x.core c).term = (t.core c).term ∧ (t.core c).term = (t'.core c).term := by
    have := h1.term_le
    have := h2.term_le
    omega
  have hrank := h1.rank hterm.1
  have hrank' := h2.rank hterm.2
  have hne := hel.before
  rw [hl] at hrank
  rw [hel.after] at hrank'
  cases hst : (t.core c).state <;> simp [hst, StateType.rank] at hrank hrank' hne

/-- An election leaves the log. -/
theorem Elected.logs_eq {t t' : Cluster} (hr : ClusterRun cfg Steady (t' :: t :: h)) {b : Nat}
    (hb : b ∈ cfg.ids) (hel : Elected t t' b) : (t'.core b).logs = (t.core b).logs := by
  cases hr with
  | step hr ha hs =>
    cases growth hr ha hs b hb with
    | keep hl _ => exact hl
    | propose hl _ _ _ _ _ _ => exact absurd hl hel.before
    | commit hl _ _ _ _ _ _ => exact absurd hl hel.before
    | append _ _ hne _ _ _ _ => exact absurd hel.after hne

/-! ## Holding an entry -/

/-- A view of the term `τ` that goes on from `p` and holds the entry `e`. -/
theorem exists_view (hr : ClusterRun cfg Steady h) {logs p V : List LogEntry} {e : LogEntry}
    {τ : Nat} (hlogs : Chained cfg h logs) (he : logs[e.id]? = some e) (hV : Led cfg h τ V)
    (hp : p <+: V) (hle : e.term ≤ τ) (hled : e.term < τ → V[e.id]? = some e) :
    ∃ U, Led cfg h τ U ∧ p <+: U ∧ U[e.id]? = some e := by
  rcases Nat.lt_or_eq_of_le hle with hlt | rfl
  · exact ⟨V, hV, hp, hled hlt⟩
  · obtain ⟨V', hV', hpre⟩ := hlogs e.id e he
    have hlen : e.id < (logs.take (e.id + 1)).length := by
      have := (List.getElem?_eq_some_iff.1 he).1
      rw [List.length_take]
      omega
    have heV' : V'[e.id]? = some e := by
      rw [Lib.getElem?_of_prefix hpre hlen, List.getElem?_take_of_lt (Nat.lt_succ_self _), he]
    rcases Led.comparable hr _ _ _ hV hV' with hc | hc
    · exact ⟨V', hV', hp.trans hc, heV'⟩
    · refine ⟨V, hV, hp, ?_⟩
      rw [Lib.getElem?_of_prefix hc (List.getElem?_eq_some_iff.1 heV').1, heV']

/-- **An entry is kept** while the leaders of newer terms hold it. -/
theorem keep_step (hr : ClusterRun cfg Safe (s :: h)) (ha : Safe s a)
    (hs : step cfg s a = some s') {e : LogEntry} {T : Nat}
    (hled : ∀ τ V, e.term < τ → τ ≤ T → Led cfg (s :: h) τ V → V[e.id]? = some e) {v : Nat}
    (hv : v ∈ cfg.ids) (hT : (s'.core v).term ≤ T) (he : e ∈ (s.core v).logs) :
    e ∈ (s'.core v).logs := by
  have hsteady : ClusterRun cfg Steady (s :: h) := hr.mono fun _ _ hok => hok.steady
  cases growth hsteady ha.steady hs v hv with
  | keep hl _ => rwa [hl]
  | propose _ _ _ _ _ hl _ => rwa [hl]
  | commit _ _ _ _ hl _ _ =>
    rw [hl]
    exact List.mem_append_left _ he
  | @append request hQ hne _ _ hterm hl _ =>
    rw [hl]
    have hok := ClusterRun.ok hr s (.head _)
    have hm := Matching.of_run hsteady
    have hcore := (hok.nodes v hv).core.logs
    have hchain : Chained cfg (s :: h) (s.core v).logs :=
      Lib.Chained.of_prefix (hm.views s (.head _) v hv) (s.core v).logs_prefix_view
    have he' : (s.core v).logs[e.id]? = some e := hcore.ordered.indexed.mem_iff.1 he
    obtain ⟨p, hp, -, hb⟩ := hQ.2
    obtain ⟨t, ht, -, hfrom⟩ := hm.sent p hp request hb
    obtain ⟨V, hV, hpre⟩ := hm.views t ht p.src (hok.packets p hp).src _ _ (hfrom.entry hne).1
    -- the entry of the request is no older than `e`, so a view of its term holds both
    have hle : e.term ≤ request.term := Nat.le_trans (hcore.term_le e he) (ha.1.term_le hQ hne)
    obtain ⟨U, hU, hpreU, heU⟩ := exists_view hsteady hchain he' hV hpre hle
      fun hlt => hled _ V hlt (Nat.le_trans hterm hT) hV
    obtain ⟨x, hx, b, hbm, -, -, rfl⟩ := hU
    have hagree := Chained.agree hsteady hchain (hm.views x hx b hbm)
    exact hfrom.append_keeps hcore.ordered hne hpreU hagree he' heU
      fun hre => ha.2 v _ hQ.1 ⟨hne, hre⟩

/-- **An entry is not taken** by a node whose term is newer. -/
theorem back_step (hr : ClusterRun cfg Safe (s :: h)) (ha : Safe s a)
    (hs : step cfg s a = some s') {e : LogEntry} {v : Nat} (hv : v ∈ cfg.ids)
    (hT : e.term < (s.core v).term) (he : e ∈ (s'.core v).logs) : e ∈ (s.core v).logs := by
  have hsteady : ClusterRun cfg Steady (s :: h) := hr.mono fun _ _ hok => hok.steady
  cases growth hsteady ha.steady hs v hv with
  | keep hl _ => rwa [hl] at he
  | propose _ _ _ _ _ hl _ => rwa [hl] at he
  | @commit log _ _ _ hterm hl _ _ =>
    rw [hl] at he
    rcases List.mem_append.1 he with he | he
    · exact he
    · rw [List.mem_singleton.1 he] at hT
      omega
  | @append request hQ hne _ _ _ hl _ =>
    rw [hl] at he
    have hi := ((ClusterRun.ok hr s (.head _)).nodes v hv).core.logs.ordered.indexed
    rcases Logs.mem_of_append hi he with he | rfl
    · exact he
    · have hle := ha.1.term_le hQ hne
      have hlt : request.term < (s.core v).term := hT
      omega

/-- What becomes of the entry `e` from `c` to `c'`, up to the term `T`. -/
structure HoldLe (e : LogEntry) (T : Nat) (c c' : Core) : Prop extends Core.VoteLe c c' where
  keep : c'.term ≤ T → e ∈ c.logs → e ∈ c'.logs
  back : e.term < c.term → e ∈ c'.logs → e ∈ c.logs

theorem HoldLe.refl {e : LogEntry} {T : Nat} (c : Core) : HoldLe e T c c :=
  ⟨.refl c, fun _ he => he, fun _ he => he⟩

theorem HoldLe.trans {e : LogEntry} {T : Nat} {c c' c'' : Core} (h : HoldLe e T c c')
    (h' : HoldLe e T c' c'') : HoldLe e T c c'' := by
  have h1 := h.term_le
  have h2 := h'.term_le
  refine ⟨h.toVoteLe.trans h'.toVoteLe, fun hT he => ?_, fun hT he => ?_⟩
  · exact h'.keep hT (h.keep (by omega) he)
  · exact h.back hT (h'.back (by omega) he)

/-- Along a run in which the leaders of newer terms, up to `T`, hold the entry. -/
theorem holdLe_pairwise (hr : ClusterRun cfg Safe h) {e : LogEntry} {T : Nat}
    (hled : ∀ s' s h', s' :: s :: h' <:+ h → ∀ τ V, e.term < τ → τ ≤ T →
      Led cfg (s :: h') τ V → V[e.id]? = some e) :
    h.Pairwise fun newer older => ∀ i ∈ cfg.ids, HoldLe e T (older.core i) (newer.core i) := by
  refine hr.pairwise_of_suffix (fun _ _ _ h1 h2 i hi => (h1 i hi).trans (h2 i hi))
    fun s a s' h' hsuf hr ha hs i hi => ?_
  have hok := ClusterRun.ok hr s (.head _)
  exact ⟨(hok.move hs).1.voteLe hok ha.1.1 i hi, fun hT he => keep_step hr ha hs
    (hled s' s h' hsuf) hi hT he, fun hT he => back_step hr ha hs hi hT he⟩

/-! ## The induction -/

/-- The candidate's log reaches an entry of the voter's, in no older term. -/
theorem last_of_upTo {p q : List LogEntry} (hp : Logs.Ordered p) (hup : Logs.UpTo p q)
    {e : LogEntry} (he : e ∈ p) (hpos : 0 < e.term) :
    ∃ g ∈ q.getLast?, e.id ≤ g.id ∧ e.term ≤ g.term := by
  obtain ⟨x, hx⟩ : ∃ x, p.getLast? = some x :=
    ⟨_, List.getLast?_eq_some_getLast (List.ne_nil_of_mem he)⟩
  have hend := hp.indexed.getLast hx
  have hget := hp.indexed.mem_iff.1 he
  have hlt := (List.getElem?_eq_some_iff.1 hget).1
  have hxt : e.term ≤ x.term :=
    hp.term_le (show e.id ≤ x.id by omega) hget (hp.indexed.mem_iff.1 (List.mem_of_getLast? hx))
  obtain ⟨hid, hterm⟩ := hup x hx
  cases hq : q.getLast? with
  | none =>
    simp only [hq, Option.map_none, Option.getD_none] at hterm
    omega
  | some g =>
    simp only [hq, Option.map_some, Option.getD_some] at hid hterm
    exact ⟨g, rfl, by omega, by omega⟩

/-- The voter held the entry when it voted. -/
theorem voter_holds (hr : ClusterRun cfg Safe h) {newer h' : List Cluster}
    (hsplit : h = newer ++ h')
    {e : LogEntry} {T v : Nat} (hv : v ∈ cfg.ids) (happ : Appended h v e) (hT : e.term < T)
    (hhold : h'.Pairwise fun newer older =>
      ∀ i ∈ cfg.ids, HoldLe e T (older.core i) (newer.core i))
    {t : Cluster} (ht : t ∈ h') (hterm : (t.core v).term = T) : e ∈ (t.core v).logs := by
  obtain ⟨w, hw, he⟩ := happ
  have hback := holdLe_pairwise (T := 0) hr (e := e) fun _ _ _ _ τ _ h1 h2 => by omega
  rw [hsplit] at hw hback
  rcases List.mem_append.1 hw with hw | hw
  · exact ((List.pairwise_append.1 hback).2.2 w hw t ht v hv).back (by omega) he
  · rcases Lib.System.comparable hhold (fun _ _ _ => .refl _) hw ht with hle | hle
    · exact (hle v hv).keep (by omega) he
    · exact (hle v hv).back (by omega) he

/-- The term of an entry that is in a log has had a leader. -/
theorem term_pos (hr : ClusterRun cfg Steady h) {v : Nat} (hv : v ∈ cfg.ids) {e : LogEntry}
    (happ : Appended h v e) : 0 < e.term := by
  obtain ⟨w, hw, he⟩ := happ
  have hnode := (hr.ok w hw).nodes v hv
  have hlogs := Lib.Chained.of_prefix (chained hr hw hv) (w.core v).logs_prefix_view
  obtain ⟨V, ⟨x, hx, b, hb, hl, hT, -⟩, -⟩ :=
    hlogs e.id e (hnode.core.logs.ordered.indexed.mem_iff.1 he)
  rw [← hT]
  exact ((hr.ok x hx).nodes b hb).core.term_pos (.inr hl)

/-- The leader was elected with an entry that a voter held, given that its log is up to the
voter's. -/
theorem elected_holds {t t' : Cluster} (hr : ClusterRun cfg Safe (t' :: t :: h)) {b v : Nat}
    (hb : b ∈ cfg.ids) (hv : v ∈ cfg.ids) (hel : Elected t t' b) {x u : Cluster}
    (hx : x ∈ t' :: t :: h) (hu : u ∈ t' :: t :: h) {e : LogEntry} (he : e ∈ (x.core v).logs)
    (hT : (u.core b).term = (t'.core b).term)
    (hup : Logs.UpTo (x.core v).logs (u.core b).logs)
    (hled : ∀ τ V, e.term < τ → τ ≤ (t'.core b).term → Led cfg (t :: h) τ V → V[e.id]? = some e) :
    (t'.core b).logs[e.id]? = some e := by
  have hsteady : ClusterRun cfg Steady (t' :: t :: h) := hr.mono fun _ _ hok => hok.steady
  have hx' := ((hr.ok x hx).nodes v hv).core.logs.ordered
  have hlogs' := ((hr.ok t' (.head _)).nodes b hb).core.logs
  have heq := hel.logs_eq hsteady hb
  obtain ⟨g, hg, hid, hterm⟩ := last_of_upTo hx' hup he (term_pos hsteady hv ⟨x, hx, he⟩)
  -- the last entry of the candidate is still there
  have hpre : (u.core b).logs <+: (t'.core b).logs := by
    have hle := Lib.System.le_newest (standLe_pairwise (hr.mono fun _ _ hok => hok.1))
      (fun _ _ _ => .refl _) hu b hb
    apply hle.logs hT
    rw [hel.after]
    exact Nat.le_refl 1
  have hmem : g ∈ (t'.core b).logs := hpre.subset (List.mem_of_getLast? hg)
  have hget : (t'.core b).logs[g.id]? = some g := hlogs'.ordered.indexed.mem_iff.1 hmem
  have hlen := (List.getElem?_eq_some_iff.1 hget).1
  have hold : ClusterRun cfg Steady (t :: h) := hsteady.of_suffix (List.suffix_cons ..) (by simp)
  obtain ⟨V, hV, hpreV⟩ : ∃ V, Led cfg (t :: h) g.term V ∧
      (t'.core b).logs.take (g.id + 1) <+: V := by
    have hchain := Lib.Chained.of_prefix (chained hold (.head _) hb) (t.core b).logs_prefix_view
    rw [← heq] at hchain
    exact hchain g.id g hget
  obtain ⟨U, -, hpreU, heU⟩ := exists_view hsteady
    (Lib.Chained.of_prefix (chained hsteady hx hv) (x.core v).logs_prefix_view)
    (hx'.indexed.mem_iff.1 he) (hV.mono fun _ hm => .tail _ hm) hpreV hterm
    fun hlt => hled _ V hlt (hlogs'.term_le g hmem) hV
  have hshort : e.id < ((t'.core b).logs.take (g.id + 1)).length := by
    rw [List.length_take]
    omega
  rwa [Lib.getElem?_of_prefix hpreU hshort, List.getElem?_take_of_lt (by omega)] at heU

/-- **Every leader of a later term is elected with an entry that a majority has appended.** -/
theorem elected_complete (hr : ClusterRun cfg Safe h) {e : LogEntry}
    (hmaj : cfg.ids.length / 2 + 1 ≤ holders cfg h e) (T : Nat) :
    ∀ t' t h' b, t' :: t :: h' <:+ h → b ∈ cfg.ids → Elected t t' b → (t'.core b).term = T →
      e.term < T → (t'.core b).logs[e.id]? = some e := by
  induction T using Nat.strong_induction_on with
  | _ T ih =>
    intro t' t h' b hsuf hb hel hT hlt
    have hsteady : ClusterRun cfg Steady h := hr.mono fun _ _ hok => hok.steady
    have hrun := hr.of_suffix hsuf (by simp)
    have hrun' : ClusterRun cfg Steady (t' :: t :: h') := hrun.mono fun _ _ hok => hok.steady
    have hsub : ∀ x ∈ t :: h', x ∈ h := fun x hx => hsuf.subset (.tail _ hx)
    -- the leaders of the terms in between hold the entry, and nobody has led this one yet
    have hled : ∀ τ V, e.term < τ → τ ≤ T → Led cfg (t :: h') τ V → V[e.id]? = some e := by
      intro τ V h1 h2 hV
      rcases Nat.lt_or_eq_of_le h2 with h2 | rfl
      · obtain ⟨w, hw, c, hc, hl, hτ, rfl⟩ := hV
        obtain ⟨u', u, k, hk, hel', hterm, hpre⟩ := exists_elected hsteady (hsub w hw) hc hl
        have hget := ih τ h2 u' u k c hk hc hel' (hterm.trans hτ) h1
        rw [Lib.getElem?_of_prefix hpre (List.getElem?_eq_some_iff.1 hget).1, hget]
      · exact absurd (hT ▸ hV) (hel.first hrun' hb)
    have hhold := holdLe_pairwise (T := T) hrun (e := e) fun s' s k hk τ V h1 h2 hV => by
      refine hled τ V h1 h2 (hV.mono fun x hx => ?_)
      have hk' : s :: k <:+ t :: h' := by
        rcases List.suffix_cons_iff.1 hk with heq | hk
        · rw [List.cons_eq_cons.1 heq |>.2]
        · exact (List.suffix_cons ..).trans hk
      exact hk'.subset hx
    -- a voter of the leader that has appended the entry
    have hvotes := (Tally.of_run (hrun'.mono fun _ _ hok => hok.1)).led t' (.head _) b hb hel.after
    obtain ⟨v, hv, happ, hgrant⟩ := Lib.exists_of_majority hmaj hvotes
    have happ : Appended h v e := of_decide_eq_true happ
    have hgrant : Granted (t' :: t :: h') T b v := by simpa [hT] using hgrant
    obtain ⟨x, hx, u, hu, hxT, huT, hrank, hup⟩ :=
      (Ballots.of_run (hrun.mono fun _ _ hok => hok.1)).backed v hv T b hgrant
    obtain ⟨newer, hsplit⟩ := hsuf
    have hex : e ∈ (x.core v).logs := voter_holds hr hsplit.symm hv happ hlt hhold hx hxT
    exact elected_holds hrun hb hv hel hx hu hex (huT.trans hT.symm) hup (hT ▸ hled)

/-- An entry of a leader's own term that a majority of the nodes holds at a moment is in the log of
every node that becomes leader of a later term. -/
def LeadersComplete (cfg : Config) (h : List Cluster) : Prop :=
  ∀ s ∈ h, ∀ a ∈ cfg.ids, ∀ e : LogEntry, (s.nodes a).state = .leader →
    e.term = (s.nodes a).store.currentTerm →
    cfg.ids.length / 2 + 1 ≤ (cfg.ids.countP fun j => decide (e ∈ (s.nodes j).store.logs)) →
    ∀ t' t h', t' :: t :: h' <:+ h → ∀ b ∈ cfg.ids, (t.nodes b).state ≠ .leader →
      (t'.nodes b).state = .leader → e.term < (t'.nodes b).store.currentTerm →
      (t'.nodes b).store.logs[e.id]? = some e

theorem Safe.unaffected (cfg : Config) : Unaffected cfg Safe where
  alike hst hc := ⟨⟨hst.avoids (fun _ inp _ hb => by cases inp <;> exact hb) hc.1.1,
    hst.avoids (fun _ inp _ hb => by cases inp <;> exact hb) hc.1.2.1,
    hst.avoids (fun _ inp _ hb => by cases inp <;> exact hb) hc.1.2.2⟩,
    hst.avoids (fun _ inp _ hb => by cases inp <;> exact hb) hc.2⟩
  call _ i _ := ⟨⟨fun j inp hh hb => by cases hh; exact hb,
    fun j inp hh hb => by cases hh; exact hb,
    fun j inp hh hb => by cases hh; exact hb⟩, fun j inp hh hb => by cases hh; exact hb⟩
  steady hc := hc.steady

end Cluster

/-- **Leader completeness**, in every run, with users that call back, in which no election wraps the
term, no node handles an entry of an older term or an entry again that its log holds below its end,
no vote is given to a candidate whose last entry is of an older term than the voter's, and no user
calls back for a commit that fails because its leader steps down. -/
theorem leaders_complete {cfg : Config} {h : List Cluster}
    (hr : UserRun cfg (Cluster.WithUsers Cluster.Safe) h) : Cluster.LeadersComplete cfg h := by
  obtain ⟨k, hk, hshow⟩ := Cluster.exists_shown (Cluster.Safe.unaffected cfg) hr
  intro s hs a _ e _ _ hmaj s' t h' hsuf b hb hbefore hafter hlt
  -- the majority holds the entry in the run without the calls
  obtain ⟨x, hx, hsx⟩ := hshow.mem_alike s hs
  have hholders : cfg.ids.length / 2 + 1 ≤ Cluster.holders cfg k e := by
    refine Nat.le_trans hmaj (List.countP_mono_left fun j _ hj => ?_)
    rw [hsx.node] at hj
    exact decide_eq_true ⟨x, hx, of_decide_eq_true hj⟩
  obtain ⟨k', hk', hshow'⟩ := hshow.of_suffix hsuf (by simp)
  cases hshow' with
  | @step _ _ u r u' v _ _ k₀ l _ _ _ hshown htu hs'r _ =>
    have hbelow := (hshown.below u' hshown.mem).trans hs'r.below
    have hsuffix : u' :: u :: k₀ <:+ k := by
      obtain ⟨l', hl'⟩ := hshown.suffix
      refine List.IsSuffix.trans ⟨l', ?_⟩ hk'
      rw [← hl']
      simp
    have hel : Cluster.Elected u u' b := by
      refine ⟨fun hl => hbefore ?_, (hbelow.state b).trans hafter⟩
      rw [htu.node]
      exact hl
    have hget := Cluster.elected_complete hk hholders _ u' u k₀ b hsuffix hb hel rfl
      (by rw [show (u'.core b).term = _ from hbelow.term b]; exact hlt)
    exact (Lib.getElem?_of_prefix (hbelow.logs b) (List.getElem?_eq_some_iff.1 hget).1).trans hget

/-- Three nodes: nodes 0 and 1 hold the entry of term 1, the user of node 0 has called back with the
next command, and node 1 becomes leader of term 2. -/
theorem leaders_complete_second_term :
    ∃ h, UserRun (.range 3 (by decide)) (Cluster.WithUsers Cluster.Safe) h ∧
      (∃ s ∈ h, (s.nodes 0).state = .leader ∧ (s.nodes 0).store.currentTerm = 1 ∧
        (s.nodes 0).pendingCommit.any (·.log.command = some [2]) ∧
        ⟨0, 1, some [1]⟩ ∈ (s.nodes 0).store.logs ∧ ⟨0, 1, some [1]⟩ ∈ (s.nodes 1).store.logs) ∧
      (∃ s ∈ h, (s.nodes 1).state = .leader ∧ (s.nodes 1).store.currentTerm = 2) ∧
      Cluster.LeadersComplete (.range 3 (by decide)) h := by
  obtain ⟨h, hr, hc⟩ := UserRun.exists_onward (.range 3 (by decide)) Cluster.Safe
    [.electionTimer 0, .deliver 0, .lose 0, .deliver 0, .broadcastTimer 0, .lose 1, .deliver 0,
      .deliver 0, .commitCommand 0 [1], .broadcastTimer 0, .lose 1, .deliver 0, .deliver 0,
      .electionTimer 1, .electionTimer 1, .deliver 1, .deliver 1]
    (fun h => (h.any fun s => (s.nodes 0).state = .leader ∧ (s.nodes 0).store.currentTerm = 1 ∧
        (s.nodes 0).pendingCommit.any (·.log.command = some [2]) ∧
        ⟨0, 1, some [1]⟩ ∈ (s.nodes 0).store.logs ∧ ⟨0, 1, some [1]⟩ ∈ (s.nodes 1).store.logs) &&
      h.any fun s => (s.nodes 1).state = .leader ∧ (s.nodes 1).store.currentTerm = 2)
    (by decide +kernel)
  simp only [Bool.and_eq_true, List.any_eq_true, decide_eq_true_eq] at hc
  exact ⟨h, hr, hc.1, hc.2, leaders_complete hr⟩

/-- Three nodes: nodes 0 and 1 hold the entry of term 1, and node 2, whose log is empty, becomes
leader of term 2 with the vote of node 1. -/
theorem leaders_not_complete :
    ∃ h, UserRun (.range 3 (by decide)) (fun _ a => a.1 = .plain) h ∧
      ¬ Cluster.LeadersComplete (.range 3 (by decide)) h := by
  obtain ⟨h, hr, hc⟩ := Lib.System.exists_run (S := Cluster.system (.range 3 (by decide)))
    (fun _ _ => True)
    [.electionTimer 0, .deliver 0, .lose 0, .deliver 0, .broadcastTimer 0, .lose 1, .deliver 0,
      .deliver 0, .commitCommand 0 [1], .broadcastTimer 0, .lose 1, .deliver 0, .deliver 0,
      .electionTimer 2, .lose 0, .lose 0, .electionTimer 2, .lose 0, .deliver 0, .deliver 0]
    (fun
      | t' :: t :: h' =>
        ((t' :: t :: h').any fun s => (s.nodes 0).state = .leader ∧
          (s.nodes 0).store.currentTerm = 1 ∧
          ([0, 1, 2].countP fun j => decide (⟨0, 1, some [1]⟩ ∈ (s.nodes j).store.logs)) = 2) &&
        decide ((t.nodes 2).state ≠ .leader ∧ (t'.nodes 2).state = .leader ∧
          (t'.nodes 2).store.currentTerm = 2 ∧ (t'.nodes 2).store.logs = [])
      | _ => false) (by decide +kernel)
  refine ⟨h, (ClusterRun.users hr).mono fun _ _ ha => ha.1, fun hcomplete => ?_⟩
  split at hc
  · rename_i t' t h'
    simp only [Bool.and_eq_true, List.any_eq_true, decide_eq_true_eq] at hc
    obtain ⟨⟨s, hs, hl, hT, hmaj⟩, hbefore, hafter, hT', hnil⟩ := hc
    have hheld := hcomplete s hs 0 (by decide) ⟨0, 1, some [1]⟩ hl hT.symm (Nat.le_of_eq hmaj.symm)
      t' t h' List.suffix_rfl 2 (by decide) hbefore hafter (by rw [hT']; decide)
    rw [hnil] at hheld
    cases hheld
  · cases hc

end Foros
