import Foros.Raft.Life
import Foros.Raft.Proof.Refine
import Foros.Raft.Proof.Store

/-!
# What a callback writes

`Path n₀ n`: the node got from `n₀` to `n` by the writes of a callback and by moves that write
nothing. Every callback is such a path (`run_path`). Along a path the database holds the context
(`Path.ok`), and a crash after any prefix of its effects leaves a database that holds a context
too, one whose vote is the old one unless the node was free to vote (`Path.crash`).
-/

namespace Foros

open Lib

/-- What holds of a store between callbacks. -/
structure ContextStore.Ok (s : ContextStore) : Prop where
  holds : s.db.Holds s
  term_lt : s.currentTerm < 2 ^ 64
  indexed : Logs.Indexed s.logs
  terms : ∀ e ∈ s.logs, e.term ≤ s.currentTerm
  length_lt : s.logs.length < 2 ^ 64

/-- The store of an empty database. -/
theorem ContextStore.empty_ok : (ContextStore.create (fun _ => true) .empty).Ok where
  holds := ContextStore.holds_create_empty
  term_lt := by decide
  indexed := Logs.indexed_nil
  terms := fun _ he => absurd he List.not_mem_nil
  length_lt := by decide

theorem ContextStore.empty_db : (ContextStore.create (fun _ => true) .empty).db = .empty := rfl

/-- Whether a node that started the callback as `s₀` may change its vote in `s`: it had none, its
term has grown, or the next term wraps. -/
def Fresh (s₀ s : ContextStore) : Prop :=
  s₀.voted = false ∨ s₀.currentTerm < s.currentTerm ∨ 2 ^ 64 ≤ s₀.currentTerm + 1

/-- The vote of `s₀` still stands in `s`, or the node was free to change it. -/
structure Kept (s₀ s : ContextStore) : Prop where
  term_le : s₀.currentTerm ≤ s.currentTerm
  vote : Fresh s₀ s ∨
    s.currentTerm = s₀.currentTerm ∧ s.votedFor = s₀.votedFor ∧ s.voted = s₀.voted

theorem Kept.refl (s : ContextStore) : Kept s s := ⟨Nat.le_refl _, .inr ⟨rfl, rfl, rfl⟩⟩

theorem Kept.fresh {s₀ s : ContextStore} (h : Kept s₀ s) (hv : s.voted = false) : Fresh s₀ s := by
  rcases h.vote with hf | ⟨-, -, hv'⟩
  · exact hf
  · exact .inl (hv' ▸ hv)

namespace Node

@[simp] theorem puts_append (es es' : List Effect) : puts (es ++ es') = puts es ++ puts es' :=
  List.filterMap_append

@[simp] theorem puts_map (ps : List (String × Bytes)) :
    puts (ps.map fun p => .put p.1 p.2) = ps := by
  induction ps with
  | nil => rfl
  | cons p ps ih => simp only [puts, List.map_cons] at ih ⊢; simp [ih]

theorem puts_eq_nil {es : List Effect} (h : ∀ e ∈ es, ∀ key value, e ≠ .put key value) :
    puts es = [] := by
  unfold puts
  rw [List.filterMap_eq_nil_iff]
  intro e he
  cases e with
  | put key value => exact absurd rfl (h _ he key value)
  | _ => rfl

/-- A write of a callback that started as `n₀`. -/
inductive Write (n₀ n : Node) : ContextStore → List (String × Bytes) → Prop
  | term {t : Nat} : n.store.currentTerm < t → t < 2 ^ 64 →
      Write n₀ n { n.store with currentTerm := t } [(kCurrentTermKey, encodeLE 8 t)]
  | votedFor (id received : Nat) : Fresh n₀.store n.store → id < 2 ^ 32 →
      Write n₀ n { n.store with votedFor := id, voteReceived := received }
        [(kVotedForKey, encodeLE 4 id)]
  | voted (b : Bool) (received : Nat) : Fresh n₀.store n.store →
      Write n₀ n { n.store with voted := b, voteReceived := received }
        [(kVotedKey, encodeLE 1 b.toNat)]
  | push {log : LogEntry} {data : Bytes} : log.command = some data →
      log.id = n.store.logs.length → log.term ≤ n.store.currentTerm →
      n.store.logs.length + 1 < 2 ^ 64 →
      Write n₀ n { n.store with logs := n.store.logs ++ [log] } (pushPuts log data)
  | revert {id : Nat} : id < n.store.logs.length →
      Write n₀ n { n.store with logs := n.store.logs.take id } [(kLogSizeKey, encodeLE 8 id)]

inductive Path (n₀ : Node) : Node → Prop
  | refl : Path n₀ n₀
  | other {n n' : Node} : Path n₀ n → Other n n' → Path n₀ n'
  | write {n : Node} {s : ContextStore} {ps : List (String × Bytes)} :
      Path n₀ n → Write n₀ n s ps → Path n₀ (n.stored s ps)

namespace Path

variable {n₀ n : Node}

theorem nodeId (h : Path n₀ n) : n.nodeId = n₀.nodeId := by
  induction h with
  | refl => rfl
  | other _ ho ih => rw [ho.nodeId, ih]
  | write _ _ ih => exact ih

theorem clusterSize (h : Path n₀ n) : n.clusterSize = n₀.clusterSize := by
  induction h with
  | refl => rfl
  | other _ ho ih => rw [ho.clusterSize, ih]
  | write _ _ ih => exact ih

theorem majority (h : Path n₀ n) : n.majority = n₀.majority := by
  induction h with
  | refl => rfl
  | other _ ho ih => rw [ho.majority, ih]
  | write _ _ ih => exact ih

theorem peers (h : Path n₀ n) :
    n.otherNodes.map (·.nodeId) = n₀.otherNodes.map (·.nodeId) := by
  induction h with
  | refl => rfl
  | other _ ho ih => rw [ho.peers, ih]
  | write _ _ ih => exact ih

theorem kept (h : Path n₀ n) : Kept n₀.store n.store := by
  induction h with
  | refl => exact .refl _
  | other _ ho ih =>
    refine ⟨by rw [ho.term]; exact ih.term_le, ?_⟩
    simpa only [Fresh, ho.term, ho.votedFor, ho.voted] using ih.vote
  | write _ hw ih =>
    cases hw with
    | term hlt _ => exact ⟨Nat.le_trans ih.term_le (Nat.le_of_lt hlt),
        .inl (.inr (.inl (Nat.lt_of_le_of_lt ih.term_le hlt)))⟩
    | votedFor _ _ hf _ => exact ⟨ih.term_le, .inl hf⟩
    | voted _ _ hf => exact ⟨ih.term_le, .inl hf⟩
    | push _ _ _ _ => exact ⟨ih.term_le, ih.vote⟩
    | revert _ => exact ⟨ih.term_le, ih.vote⟩

end Path

/-! ## The database along a path -/

/-- A write keeps the store in order. -/
theorem Write.ok {n₀ n : Node} {s : ContextStore} {ps : List (String × Bytes)}
    (hw : Write n₀ n s ps) (h : n.store.Ok) : (n.stored s ps).store.Ok := by
  obtain ⟨hh, ht, hids, hterms, hlen⟩ := h
  cases hw with
  | term hlt h64 =>
    exact ⟨(hh.putTerm h64).congr rfl rfl rfl rfl, h64, hids,
      fun e he => Nat.le_trans (hterms e he) (Nat.le_of_lt hlt), hlen⟩
  | votedFor _ _ _ hid => exact ⟨(hh.putVotedFor hid).congr rfl rfl rfl rfl, ht, hids, hterms, hlen⟩
  | voted _ _ _ => exact ⟨(hh.putVoted _).congr rfl rfl rfl rfl, ht, hids, hterms, hlen⟩
  | push hc hid hle hl =>
    refine ⟨?_, ht, hids.push hid, fun e he => ?_, ?_⟩
    · have := hh.push hid hc (Nat.lt_of_le_of_lt hle ht) hl
      rw [← hid] at this
      exact this.congr rfl rfl rfl rfl
    · rcases List.mem_append.1 he with he | he
      · exact hterms e he
      · rw [List.mem_singleton.1 he]
        exact hle
    · change (n.store.logs ++ [_]).length < _
      rwa [List.length_append]
  | revert hlt =>
    refine ⟨(hh.putSize (Nat.le_of_lt hlt) (Nat.lt_trans hlt hlen)).congr rfl rfl rfl rfl, ht,
      hids.take _, fun e he => hterms e (List.mem_of_mem_take he), ?_⟩
    exact Nat.lt_of_le_of_lt (List.length_take_le _ _) (by omega)

theorem Other.ok {n n' : Node} (ho : Other n n') (h : n.store.Ok) : n'.store.Ok := by
  obtain ⟨hh, ht, hids, hterms, hlen⟩ := h
  refine ⟨?_, by rwa [ho.term], by rwa [ho.logs], by rwa [ho.term, ho.logs], by rwa [ho.logs]⟩
  rw [ho.db]
  exact hh.congr ho.term ho.votedFor ho.voted ho.logs

theorem Path.ok {n₀ n : Node} (h : Path n₀ n) (h0 : n₀.store.Ok) : n.store.Ok := by
  induction h with
  | refl => exact h0
  | other _ ho ih => exact ho.ok ih
  | write _ hw ih => exact hw.ok ih

/-! ## Crashes -/

/-- A database cut in the middle of a path. -/
def Cut (n₀ : Node) (db : LevelDB) : Prop := ∃ s : ContextStore, s.db = db ∧ s.Ok ∧ Kept n₀.store s

/-- A cut write is invisible or complete. -/
theorem Write.cut {n₀ n : Node} {s : ContextStore} {ps : List (String × Bytes)}
    (hw : Write n₀ n s ps) (hpath : Path n₀ n) (h : n.store.Ok) {p : List (String × Bytes)}
    (hp : p <+: ps) : Cut n₀ (n.store.db.putAll p) := by
  have hnone : Cut n₀ (n.store.db.putAll []) := ⟨n.store, rfl, h, hpath.kept⟩
  have hall : Cut n₀ (n.store.db.putAll ps) := ⟨_, rfl, hw.ok h, (hpath.write hw).kept⟩
  have hone : ∀ x, ps = [x] → Cut n₀ (n.store.db.putAll p) := by
    rintro x rfl
    rcases List.prefix_cons_iff.1 hp with rfl | ⟨p', rfl, hp'⟩
    · exact hnone
    · rw [List.prefix_nil.1 hp']
      exact hall
  cases hw with
  | term _ _ => exact hone _ rfl
  | votedFor _ _ _ _ => exact hone _ rfl
  | voted _ _ _ => exact hone _ rfl
  | revert _ => exact hone _ rfl
  | @push log data hc hid hle hl =>
    obtain ⟨hh, ht, hids, hterms, hlen⟩ := h
    -- the two `Put`s of the entry are past the end of the log
    have h1 := hh.putEntry (Nat.le_of_eq hid.symm) (.inl rfl) (encodeLE 8 log.term)
    have h2 := h1.putEntry (Nat.le_of_eq hid.symm) (.inr rfl) data
    have hcut : ∀ db : LevelDB, db.Holds n.store → Cut n₀ db := fun db hdb =>
      ⟨{ n.store with db := db }, rfl, ⟨hdb.congr rfl rfl rfl rfl, ht, hids, hterms, hlen⟩,
        hpath.kept.term_le, hpath.kept.vote⟩
    unfold pushPuts at hp
    rcases List.prefix_cons_iff.1 hp with rfl | ⟨p1, rfl, hp1⟩
    · exact hnone
    rcases List.prefix_cons_iff.1 hp1 with rfl | ⟨p2, rfl, hp2⟩
    · exact hcut _ h1
    rcases List.prefix_cons_iff.1 hp2 with rfl | ⟨p3, rfl, hp3⟩
    · exact hcut _ h2
    rw [List.prefix_nil.1 hp3]
    exact hall

theorem putAll_append (db : LevelDB) (ps ps' : List (String × Bytes)) :
    db.putAll (ps ++ ps') = (db.putAll ps).putAll ps' := List.foldl_append

/-- The effects of a path, and the database they make. -/
theorem Path.trace {n₀ n : Node} (h : Path n₀ n) :
    ∃ es, n.trace = n₀.trace ++ es ∧ n.store.db = n₀.store.db.putAll (puts es) := by
  induction h with
  | refl => exact ⟨[], by simp, rfl⟩
  | other _ ho ih =>
    obtain ⟨es, he, hdb⟩ := ih
    obtain ⟨q, hq, hput⟩ := ho.trace
    refine ⟨es ++ q, by rw [hq, he, List.append_assoc], ?_⟩
    rw [ho.db, hdb, puts_append, puts_eq_nil hput, List.append_nil]
  | @write n s ps _ _ ih =>
    obtain ⟨es, he, hdb⟩ := ih
    refine ⟨es ++ ps.map fun p => .put p.1 p.2, ?_, ?_⟩
    · change n.trace ++ _ = _
      rw [he, List.append_assoc]
    · change n.store.db.putAll ps = _
      rw [hdb, puts_append, puts_map, putAll_append]

/-- A prefix of effects that are not `Put`s has no `Put`s. -/
theorem puts_prefix_eq_nil {q es : List Effect}
    (h : ∀ e ∈ es, ∀ key value, e ≠ .put key value) (hq : q <+: es) : puts q = [] :=
  puts_eq_nil fun e he => h e (hq.subset he)

/-- The `Put`s of a prefix of `Put`s are a prefix. -/
theorem puts_prefix_map {q : List Effect} {ps : List (String × Bytes)}
    (hq : q <+: ps.map fun p => .put p.1 p.2) : puts q <+: ps := by
  obtain ⟨r, hr⟩ := hq
  have := congrArg puts hr
  rw [puts_append, puts_map] at this
  exact ⟨puts r, this⟩

theorem prefix_append_cases {α : Type} {p xs ys : List α} (h : p <+: xs ++ ys) :
    p <+: xs ∨ ∃ r, p = xs ++ r ∧ r <+: ys := by
  rcases List.prefix_or_prefix_of_prefix h (List.prefix_append xs ys) with hp | ⟨r, rfl⟩
  · exact .inl hp
  · exact .inr ⟨r, rfl, (List.prefix_append_right_inj xs).1 h⟩

/-- **A crash anywhere in a callback** leaves a database that holds a context in which the vote
stands, unless the node was free to change it. -/
theorem Path.crash {n₀ n : Node} (h : Path n₀ n) (h0 : n₀.store.Ok) :
    ∀ es, n.trace = n₀.trace ++ es → ∀ p, p <+: es → Cut n₀ (n₀.store.db.putAll (puts p)) := by
  induction h with
  | refl =>
    intro es he p hp
    rw [List.self_eq_append_right.1 he, List.prefix_nil] at hp
    rw [hp]
    exact ⟨n₀.store, rfl, h0, .refl _⟩
  | @other n n' hpath ho ih =>
    obtain ⟨es, he, hdb⟩ := hpath.trace
    obtain ⟨q, hq, hput⟩ := ho.trace
    intro es' he' p hp
    have hes : es' = es ++ q := by
      rw [hq, he, List.append_assoc] at he'
      exact (List.append_cancel_left he').symm
    subst hes
    rcases prefix_append_cases hp with hp | ⟨r, rfl, hr⟩
    · exact ih es he p hp
    · rw [puts_append, puts_prefix_eq_nil hput hr, List.append_nil, ← hdb]
      exact ⟨n.store, rfl, hpath.ok h0, hpath.kept⟩
  | @write n s ps hpath hw ih =>
    obtain ⟨es, he, hdb⟩ := hpath.trace
    intro es' he' p hp
    have hes : es' = es ++ ps.map fun p => .put p.1 p.2 := by
      change n.trace ++ _ = _ at he'
      rw [he, List.append_assoc] at he'
      exact (List.append_cancel_left he').symm
    subst hes
    rcases prefix_append_cases hp with hp | ⟨r, rfl, hr⟩
    · exact ih es he p hp
    · rw [puts_append, putAll_append, ← hdb]
      exact hw.cut hpath (hpath.ok h0) (puts_prefix_map hr)

/-! ## Callbacks are paths -/

namespace Path

variable {n₀ n : Node}

theorem adopt (h : Path n₀ n) {t : Nat} (hlt : n.store.currentTerm < t) (ht : t < 2 ^ 64) :
    Path n₀ (n.adopt t) := by
  have h1 := h.write (.term hlt ht)
  have hf : Fresh n₀.store (n.stored { n.store with currentTerm := t }
      [(kCurrentTermKey, encodeLE 8 t)]).store :=
    .inr (.inl (Nat.lt_of_le_of_lt h.kept.term_le hlt))
  have h2 := h1.write (.votedFor 0 0 hf (by decide))
  exact h2.write (.voted false 0 hf)

theorem updateTerm (h : Path n₀ n) {t : Nat} (ht : t < 2 ^ 64) :
    Path n₀ (updateTerm .plain t false n).2 := by
  by_cases hle : t ≤ n.store.currentTerm
  · rw [updateTerm_of_le hle]
    exact h
  · rw [updateTerm_of_lt (by omega)]
    exact (h.adopt (by omega) ht).other (raise_down (.inl rfl) _).2

/-- A change of fields outside the store. -/
theorem set (h : Path n₀ n) {n' : Node} (hs : n'.store = n.store) (hi : n'.nodeId = n.nodeId)
    (hc : n'.clusterSize = n.clusterSize) (hm : n'.majority = n.majority)
    (hp : n'.otherNodes.map (·.nodeId) = n.otherNodes.map (·.nodeId))
    (ht : n'.trace = n.trace) : Path n₀ n' :=
  h.other (.of_eq hs hi hc hm hp ⟨[], by simp [ht], by simp⟩)

theorem checkElected (h : Path n₀ n) : Path n₀ (checkElected .plain n) := by
  unfold Node.checkElected
  split
  · exact h
  · have hset : Path n₀ { n with
        otherNodes := n.otherNodes.map (setMatchIndex ((n.store.lastLog.map (·.id)).getD 0)) } :=
      h.set rfl rfl rfl rfl (by simp [setMatchIndex, Function.comp_def]) rfl
    exact hset.other (raise_elected _).2

/-- Sending messages. -/
theorem send (h : Path n₀ n) {es : List Effect}
    (hes : ∀ e ∈ es, ∀ key value, e ≠ .put key value) :
    Path n₀ { n with trace := n.trace ++ es } :=
  h.other (.of_eq rfl rfl rfl rfl rfl ⟨es, rfl, hes⟩)

theorem emit (h : Path n₀ n) {e : Effect} (he : ∀ key value, e ≠ .put key value) :
    Path n₀ (n.emit e) := h.other (.emit he)

theorem requestVote (h : Path n₀ n) : Path n₀ (requestVote .plain n) := by
  unfold Node.requestVote
  rw [foldl_requestVote]
  refine (h.send ?_).checkElected
  intro e he key value hput
  obtain ⟨node, -, rfl⟩ := List.mem_map.1 he
  cases hput

/-- The vote is reset and given, when the node is free to. -/
theorem revote (h : Path n₀ n) (hf : Fresh n₀.store n.store) (hid : n.nodeId < 2 ^ 32) :
    Path n₀ (voteForMe .plain (resetVote .plain n)) := by
  have h1 := h.write (.votedFor 0 0 hf (by decide))
  have h2 := h1.write (.voted false 0 hf)
  have h3 := h2.write (.votedFor n.nodeId 0 hf hid)
  exact h3.write (.voted true 1 hf)

theorem prepared (h : Path n₀ n) (hid : n.nodeId < 2 ^ 32)
    (hstart : n.store.currentTerm = n₀.store.currentTerm) : Path n₀ n.prepared := by
  unfold Node.prepared
  rw [increaseTerm_eq]
  have h64 : (n.store.currentTerm + 1) % 2 ^ 64 < 2 ^ 64 := Nat.mod_lt _ (by decide)
  by_cases hlt : n.store.currentTerm < (n.store.currentTerm + 1) % 2 ^ 64
  · rw [if_pos hlt]
    have ha := h.adopt hlt h64
    exact ha.revote (.inr (.inl (hstart ▸ hlt))) hid
  · rw [if_neg hlt]
    refine h.revote (.inr (.inr ?_)) hid
    by_contra hw
    rw [Nat.mod_eq_of_lt (by omega)] at hlt
    omega

theorem startElection (h : Path n₀ n) (hid : n.nodeId < 2 ^ 32)
    (hstart : n.store.currentTerm = n₀.store.currentTerm) :
    Path n₀ (startElection .plain n) := by
  have htimer : Path n₀ n.prepared.resetElectionTimer :=
    (h.prepared hid hstart).set rfl rfl rfl rfl rfl rfl
  exact htimer.requestVote

theorem onElectionTimer (hid : n.nodeId < 2 ^ 32) : Path n (onElectionTimer .plain n) := by
  unfold Node.onElectionTimer
  split
  · exact Path.refl.set rfl rfl rfl rfl rfl rfl
  cases hs : n.state with
  | follower =>
    obtain ⟨q, hq, he⟩ := handle_timedout_eq hs
    rw [he]
    have hcand : Path n { n with
        state := .candidate
        lifecycle := .standby
        trace := n.trace ++ q } := Path.refl.other (.of_eq rfl rfl rfl rfl rfl ⟨q, rfl, hq.not_put⟩)
    exact hcand.startElection hid rfl
  | candidate =>
    have he : handle .plain .timedout n = Node.startElection .plain n := by
      simp only [handle, handleWith, hs, transitionMap, onEvent]
    rw [he]
    exact Path.refl.startElection hid rfl
  | standby =>
    have he : handle .plain .timedout n = n := by simp only [handle, handleWith, hs, transitionMap]
    rw [he]
    exact .refl
  | leader =>
    have he : handle .plain .timedout n = n := by simp only [handle, handleWith, hs, transitionMap]
    rw [he]
    exact .refl

theorem onRequestVoteResponse {response : RequestVoteResponse} (h : Path n₀ n)
    (ht : response.term < 2 ^ 64) : Path n₀ (onRequestVoteResponse .plain response n) := by
  unfold Node.onRequestVoteResponse
  split
  · exact h
  have hu := h.updateTerm ht
  rcases hres : Node.updateTerm .plain response.term false n with ⟨updated, n'⟩
  rw [hres] at hu
  simp only
  split
  · exact hu
  split
  · exact hu
  · have hcount : Path n₀ { n' with store := n'.store.increaseVoteReceived } :=
      hu.other ⟨rfl, rfl, rfl, rfl, rfl, rfl, rfl, rfl, rfl, [], by simp, by simp⟩
    exact hcount.checkElected

theorem vote (h : Path n₀ n) {id : Nat} (hid : id < 2 ^ 32) (term lastIndex lastTerm : Nat) :
    Path n₀ (vote .plain term id lastIndex lastTerm n).2 := by
  unfold Node.vote
  simp only
  split
  · rename_i hg
    have hf := h.kept.fresh hg.2.1
    exact (h.write (.votedFor id _ hf hid)).write (.voted true _ hf)
  · exact h

theorem onRequestVoteRequested {request : RequestVoteRequest} (h : Path n₀ n)
    (ht : request.term < 2 ^ 64) (hpeers : ∀ node ∈ n.otherNodes, node.nodeId < 2 ^ 32) :
    Path n₀ (onRequestVoteRequested .plain request n).2 := by
  unfold Node.onRequestVoteRequested
  split
  · exact h
  rename_i hv
  have hid : request.candidateId < 2 ^ 32 := by
    simp only [isValidNode, Bool.not_eq_false, List.any_eq_true, decide_eq_true_eq] at hv
    obtain ⟨node, hm, he⟩ := hv
    rw [← he]
    exact hpeers node hm
  exact (h.updateTerm ht).vote hid _ _ _

/-- A push, accepted or not; the entry's term is known when it is accepted. -/
theorem pushLog (h : Path n₀ n) {l : LogEntry} (ht : l.term ≤ n.store.currentTerm)
    (hlen : (n.onStore (·.pushLog Env.plain.putOk (some l))).2.store.logs.length < 2 ^ 64) :
    Path n₀ (n.onStore (·.pushLog Env.plain.putOk (some l))).2 := by
  rcases Logs.push_cases l n.store.logs with ⟨data, hc, hid⟩ | hr
  · rw [onStore_pushLog hc hid] at hlen ⊢
    change (n.store.logs ++ [l]).length < _ at hlen
    rw [List.length_append] at hlen
    exact h.write (.push hc hid ht hlen)
  · rw [onStore_pushLog_rejected hr]
    exact h.other ⟨rfl, rfl, rfl, rfl, rfl, rfl, rfl, rfl, rfl, [], rfl, by simp⟩

theorem revertLog (h : Path n₀ n) (id : Nat) :
    Path n₀ (n.onStore (·.revertLog Env.plain.putOk id)).2 := by
  rcases Nat.lt_or_ge id n.store.logs.length with hlt | hge
  · rw [onStore_revertLog hlt]
    exact h.write (.revert hlt)
  · rw [onStore_revertLog_rejected hge]
    exact h.other ⟨rfl, rfl, rfl, rfl, rfl, rfl, rfl, rfl, rfl, [], rfl, by simp⟩

theorem completeCommit (h : Path n₀ n) {promise : Nat} {log : LogEntry}
    (ht : log.term ≤ n.store.currentTerm)
    (hlen : (completeCommit .plain promise log true n).store.logs.length < 2 ^ 64) :
    Path n₀ (completeCommit .plain promise log true n) := by
  have hp : Path n₀ (n.onStore (·.pushLog Env.plain.putOk (some log))).2 := h.pushLog ht hlen
  exact (hp.emit (by simp)).emit (by simp)

theorem handlePendingCommitResponse (h : Path n₀ n) {id commitIndex term : Nat} {success : Bool}
    (ht : ∀ commit ∈ n.pendingCommit, commit.log.term ≤ n.store.currentTerm)
    (hlen : (handlePendingCommitResponse .plain id commitIndex term success n).store.logs.length
      < 2 ^ 64) :
    Path n₀ (handlePendingCommitResponse .plain id commitIndex term success n) := by
  revert hlen
  unfold Node.handlePendingCommitResponse
  cases hp : n.pendingCommit with
  | none => exact fun _ => h
  | some commit =>
    simp only
    split
    · exact fun _ => h
    split
    · exact fun _ => h.set rfl rfl rfl rfl rfl rfl
    · intro hlen
      have hclear : Path n₀ { n with pendingCommit := none } := h.set rfl rfl rfl rfl rfl rfl
      exact hclear.completeCommit (ht commit hp) hlen

/-- The answer's term is seen; what is pending afterwards was pending before. -/
theorem onBroadcastResponse {id commitIndex term : Nat} {success : Bool} (h : Path n₀ n)
    (hterm : term < 2 ^ 64)
    (ht : ∀ commit ∈ n.pendingCommit, commit.log.term ≤ n.store.currentTerm)
    (hlen : (onBroadcastResponse .plain id commitIndex term success n).store.logs.length < 2 ^ 64) :
    Path n₀ (onBroadcastResponse .plain id commitIndex term success n) := by
  revert hlen
  unfold Node.onBroadcastResponse
  simp only
  split
  · have hc := (updateTerm_spec term n).core
    refine fun hlen => (h.updateTerm hterm).handlePendingCommitResponse ?_ hlen
    intro commit hcommit
    have hle : n.store.currentTerm ≤ (Node.updateTerm .plain term false n).2.store.currentTerm := by
      change n.core.term ≤ (Node.updateTerm .plain term false n).2.core.term
      rw [hc, Core.observe_term]
      exact Nat.le_max_left _ _
    have hp : (Node.updateTerm .plain term false n).2.core.pending = some commit := hcommit
    rw [hc] at hp
    rcases Core.observe_pending n.core term with hnone | hsame
    · rw [hnone] at hp
      cases hp
    · rw [hsame] at hp
      exact Nat.le_trans (ht commit hp) hle
  · exact fun hlen => h.handlePendingCommitResponse ht hlen

theorem onAppendEntriesResponse {id : Nat} {request : AppendEntriesRequest}
    {response : AppendEntriesResponse} (h : Path n₀ n) (hterm : response.term < 2 ^ 64)
    (ht : ∀ commit ∈ n.pendingCommit, commit.log.term ≤ n.store.currentTerm)
    (hlen : (onAppendEntriesResponse .plain id request response n).store.logs.length < 2 ^ 64) :
    Path n₀ (onAppendEntriesResponse .plain id request response n) := by
  have hids := Core.map_updateIndex_nodeId n.otherNodes id request response
  have hpeer : Path n₀ { n with
      otherNodes := n.otherNodes.map fun node =>
        if node.nodeId = id then updateIndex request response node else node } :=
    h.set rfl rfl rfl rfl hids rfl
  exact hpeer.onBroadcastResponse hterm ht hlen

theorem commitCommand {command : Option Command} (h : Path n₀ n)
    (hlen : (commitCommand .plain command n).store.logs.length < 2 ^ 64) :
    Path n₀ (commitCommand .plain command n) := by
  have hnew : Path n₀ { n with promises := n.promises + 1 } := h.set rfl rfl rfl rfl rfl rfl
  revert hlen
  unfold Node.commitCommand
  simp only
  split
  · exact fun _ => hnew.emit (by simp)
  split
  · exact fun hlen => hnew.completeCommit (Nat.le_refl _) hlen
  unfold setPendingCommit
  simp only [ne_eq, not_true_eq_false, if_false]
  split
  · exact fun _ => hnew.emit (by simp)
  · exact fun _ => hnew.set rfl rfl rfl rfl rfl rfl

theorem pushRequested {request : AppendEntriesRequest} (h : Path n₀ n)
    (ht : request.term ≤ n.store.currentTerm)
    (hlen : (pushRequested .plain request n).2.store.logs.length < 2 ^ 64) :
    Path n₀ (pushRequested .plain request n).2 := by
  have hlog : (Node.pushRequested .plain request n).2.store =
      (n.onStore (·.pushLog Env.plain.putOk (some (Logs.entry request)))).2.store := by
    change (if (n.onStore (·.pushLog Env.plain.putOk (some (Logs.entry request)))).1 = false then
      _ else _ : Bool × Node).2.store = _
    split <;> rfl
  rw [hlog] at hlen
  have hp := h.pushLog (l := Logs.entry request) ht hlen
  change Path n₀ (if (n.onStore (·.pushLog Env.plain.putOk (some (Logs.entry request)))).1 = false
    then _ else _ : Bool × Node).2
  split
  · exact hp
  · exact hp.emit (by simp)

theorem requestLocalCommit {request : AppendEntriesRequest} (h : Path n₀ n)
    (ht : request.term ≤ n.store.currentTerm)
    (hlen : (requestLocalCommit .plain request n).2.store.logs.length < 2 ^ 64) :
    Path n₀ (requestLocalCommit .plain request n).2 := by
  revert hlen
  unfold Node.requestLocalCommit
  cases n.store.lastLog with
  | none => exact fun hlen => h.pushRequested ht hlen
  | some log =>
    simp only
    split
    · exact fun _ => h
    split
    · intro hlen
      have hterm : ∀ k, (n.onStore (·.revertLog Env.plain.putOk k)).2.store.currentTerm =
          n.store.currentTerm := fun k => congrArg Core.term (revertLog_spec k n).core
      refine ((h.revertLog _).emit (by simp)).pushRequested ?_ hlen
      exact ht.trans (Nat.le_of_eq (hterm _).symm)
    · exact fun hlen => h.pushRequested ht hlen

theorem appendRequested {request : AppendEntriesRequest} (h : Path n₀ n)
    (ht : request.term ≤ n.store.currentTerm)
    (hlen : (appendRequested .plain request n).2.store.logs.length < 2 ^ 64) :
    Path n₀ (appendRequested .plain request n).2 := by
  revert hlen
  unfold Node.appendRequested
  split
  · exact fun _ => h
  split
  · exact fun hlen => h.requestLocalCommit ht hlen
  cases n.store.log request.prevLogIndex with
  | none => exact fun _ => h
  | some log =>
    simp only
    split
    · exact fun _ => h.revertLog _
    · exact fun hlen => h.requestLocalCommit ht hlen

theorem onAppendEntriesRequested {request : AppendEntriesRequest} (h : Path n₀ n)
    (hterm : request.term < 2 ^ 64)
    (hlen : (onAppendEntriesRequested .plain request n).2.store.logs.length < 2 ^ 64) :
    Path n₀ (onAppendEntriesRequested .plain request n).2 := by
  revert hlen
  unfold Node.onAppendEntriesRequested
  split
  · exact fun _ => h
  simp only
  split
  · exact fun hlen => h.appendRequested (by omega) hlen
  · intro hlen
    have hc := (updateTerm_spec request.term n).core
    have hflag : Path n₀ { (Node.updateTerm .plain request.term false n).2 with
        broadcastReceived := true } := (h.updateTerm hterm).set rfl rfl rfl rfl rfl rfl
    have hdown := raise_down (.inr rfl) { (Node.updateTerm .plain request.term false n).2 with
      broadcastReceived := true }
    refine (hflag.other hdown.2).appendRequested ?_ hlen
    rw [hdown.2.term]
    change request.term ≤ (Node.updateTerm .plain request.term false n).2.core.term
    rw [hc, Core.observe_term]
    exact Nat.le_max_right _ _

theorem broadcastTimer (hid : n.LastId) : Path n (handle .plain .broadcastTimedout n) := by
  by_cases hs : n.state = .leader
  · have he : handle .plain .broadcastTimedout n = n.broadcast := by
      simp only [handle, handleWith, hs, transitionMap, onEvent]
    have hset : Path n n.settle := Path.refl.set rfl rfl rfl rfl rfl rfl
    rw [he, broadcast_eq hid]
    apply hset.send
    intro e hm key value hput
    obtain ⟨node, -, rfl⟩ := List.mem_map.1 hm
    cases hput
  · have ht : transitionMap n.state .broadcastTimedout = none := by
      cases h : n.state <;> simp_all [transitionMap]
    have he : handle .plain .broadcastTimedout n = n := by simp only [handle, handleWith, ht]
    rw [he]
    exact .refl

end Path

end Node

/-- The terms of an input are `uint64_t`. -/
def Input.TermLt : Input → Prop
  | .appendEntries request => request.term < 2 ^ 64
  | .requestVote request => request.term < 2 ^ 64
  | .appendEntriesResponse _ _ response => response.term < 2 ^ 64
  | .requestVoteResponse response => response.term < 2 ^ 64
  | _ => True

instance (input : Input) : Decidable input.TermLt := by
  refine Input.casesOn input ?_ ?_ ?_ ?_ ?_ ?_ ?_ <;> intros <;> dsimp only [Input.TermLt] <;>
    infer_instance

namespace Node

/-- What holds of a node between callbacks, besides what its core does. -/
structure Ok (n : Node) : Prop where
  store : n.store.Ok
  nodeId_lt : n.nodeId < 2 ^ 32
  peers_lt : ∀ node ∈ n.otherNodes, node.nodeId < 2 ^ 32
  pending : ∀ commit ∈ n.pendingCommit, commit.log.term ≤ n.store.currentTerm

theorem Ok.lastId {n : Node} (h : n.Ok) : n.LastId := fun _ hl => h.store.indexed.getLast hl

theorem dispatch_path {n : Node} (h : n.Ok) {input : Input} (hin : input.TermLt)
    (hlen : (dispatch .plain input n).store.logs.length < 2 ^ 64) :
    Path n (dispatch .plain input n) := by
  revert hlen
  unfold dispatch
  cases input with
  | electionTimer =>
    simp only
    split
    · exact fun _ => Path.onElectionTimer h.nodeId_lt
    · exact fun _ => .refl
  | broadcastTimer =>
    simp only
    split
    · exact fun _ => Path.broadcastTimer h.lastId
    · exact fun _ => .refl
  | commitCommand command => exact fun hlen => Path.refl.commitCommand hlen
  | appendEntries request =>
    exact fun hlen => (Path.refl.onAppendEntriesRequested hin hlen).emit (by simp)
  | requestVote request =>
    exact fun _ => (Path.refl.onRequestVoteRequested hin h.peers_lt).emit (by simp)
  | appendEntriesResponse id request response =>
    exact fun hlen => Path.refl.onAppendEntriesResponse hin h.pending hlen
  | requestVoteResponse response => exact fun _ => Path.refl.onRequestVoteResponse hin

/-- **A callback is a path.** -/
theorem run_path {n : Node} (h : n.Ok) {input : Input} (hin : input.TermLt)
    (hlen : (run .plain input n).store.logs.length < 2 ^ 64) :
    Path { n with trace := [] } (run .plain input n) :=
  dispatch_path (n := { n with trace := [] }) ⟨h.store, h.nodeId_lt, h.peers_lt, h.pending⟩ hin hlen

/-! ## Starting -/

theorem started_spec {n : Node} (hs : n.state = .standby) :
    Spec n (handle .plain .started n) { n.core with state := .follower } [] ∧
      Other n (handle .plain .started n) := by
  have ht : transitionMap n.state .started = some (some .follower) := by rw [hs]; rfl
  rw [handle_eq_raise (by decide) (by decide)]
  obtain ⟨h1, h2⟩ := raise_spec ht
  rw [if_neg (by rw [hs]; decide)] at h1
  exact ⟨h1, h2⟩

/-- **A node started on a database** that holds `s` is a follower with the context of `s`. -/
theorem create_spec {db : LevelDB} {s : ContextStore} (h : db.Holds s) (ids : List Nat)
    (me : Nat) :
    (create .plain ids me db).core =
        { nodeId := me
          clusterSize := ids.length % 2 ^ 32
          majority := ids.length % 2 ^ 32 / 2 + 1
          term := s.currentTerm
          votedFor := s.votedFor
          voted := s.voted
          voteReceived := 0
          logs := s.logs
          peers := initializeOtherNodes ids me s.logs.length
          pending := none
          state := .follower } ∧
      (create .plain ids me db).store.db = db ∧ (create .plain ids me db).visible = [] ∧
      (create .plain ids me db).Aligned := by
  unfold create
  rw [ContextStore.create_of_holds h]
  exact ⟨(started_spec rfl).1.core, (started_spec rfl).2.db, (started_spec rfl).1.visible,
    (started_spec rfl).1.aligned rfl⟩

/-- A node started on a store in order. -/
theorem create_ok {s : ContextStore} (hs : s.Ok) {ids : List Nat} {me : Nat} (hme : me < 2 ^ 32)
    (hids : ∀ i ∈ ids, i < 2 ^ 32) : (create .plain ids me s.db).Ok := by
  obtain ⟨hcore, hdb, -, -⟩ := create_spec hs.holds ids me
  generalize create .plain ids me s.db = m at *
  have hterm : m.store.currentTerm = s.currentTerm := congrArg Core.term hcore
  have hl : m.store.logs = s.logs := congrArg Core.logs hcore
  have hpend : m.pendingCommit = none := congrArg Core.pending hcore
  have hpeers : m.otherNodes = initializeOtherNodes ids me s.logs.length :=
    congrArg Core.peers hcore
  refine
    { store :=
        { holds := by
            rw [hdb]
            exact hs.holds.congr hterm (congrArg Core.votedFor hcore)
              (congrArg Core.voted hcore) hl
          term_lt := by rw [hterm]; exact hs.term_lt
          indexed := by rw [hl]; exact hs.indexed
          terms := by rw [hl, hterm]; exact hs.terms
          length_lt := by rw [hl]; exact hs.length_lt }
      nodeId_lt := by rw [show m.nodeId = me from congrArg Core.nodeId hcore]; exact hme
      peers_lt := fun node hm => ?_
      pending := by simp [hpend] }
  rw [hpeers] at hm
  simp only [initializeOtherNodes, List.mem_map, List.mem_insertionSort, List.mem_dedup,
    List.mem_filter] at hm
  obtain ⟨id, ⟨hid, -⟩, rfl⟩ := hm
  exact hids id hid

end Node

end Foros
