import Foros.Lib.Catchup
import Foros.Raft.Proof.Refine
import Foros.Raft.Proof.WellFormed

/-!
# Replication converges

Rounds between a leader and one peer: the broadcast, the peer's handling of the request, and the
leader's handling of the answer. Nothing is pending, so the leader's log is fixed. The peer's next
index and its log move like the cursor and the copy of `Lib.Sync` (`Serves.round`): a request that
carries an entry is accepted, and the peer then has the leader's log up to it, or rejected, which
happens only where the peer lacks the entries below; a heartbeat is always rejected. So the peer's
log becomes the leader's and stays so (`replication_converges`).
-/

namespace Foros

/-- The request among the effects that goes to the peer `id`. -/
def requestTo (id : Nat) (es : List Effect) : Option AppendEntriesRequest :=
  es.findSome? fun
    | .sendAppendEntries dst request => if dst = id then some request else none
    | _ => none

/-- A complete lossless round between a leader and its peer `id`. -/
def round (id : Nat) (s : Node × Node) : Node × Node :=
  let leader := Node.broadcast { s.1 with trace := [] }
  match requestTo id leader.trace with
  | none => (leader, s.2)
  | some request =>
    let (response, peer) := Node.onAppendEntriesRequested .plain request s.2
    (Node.onAppendEntriesResponse .plain id request response leader, peer)

/-- The next index the leader keeps for the peer `id`. -/
def Node.nextIndex (id : Nat) (n : Node) : Option Nat :=
  (n.otherNodes.find? (·.nodeId = id)).map (·.nextIndex)

/-! ## A request of the leader -/

/-- A request that carries an entry is accepted, and the log is then the view up to the entry, or
it is rejected by a log that lacks the entries below. -/
theorem FromView.accepted_or_rejected {logs V : List LogEntry} {request : AppendEntriesRequest}
    (h : FromView V request) (hne : request.entries ≠ []) (hi : Logs.Indexed logs)
    (hagree : Logs.Agree logs V) :
    Logs.append request logs = (true, V.take (request.leaderCommit + 1)) ∨
    ((Logs.append request logs).1 = false ∧ 0 < request.leaderCommit ∧
      ¬ V.take request.leaderCommit <+: logs ∧ (Logs.append request logs).2 <+: logs) := by
  obtain ⟨hent, hpred⟩ := h.entry hne
  have hlen := (List.getElem?_eq_some_iff.1 hent).1
  -- a log with the entries below passes the check on the predecessor
  have hmatch : V.take request.leaderCommit <+: logs →
      request.leaderCommit ≤ logs.length ∧ (request.leaderCommit ≠ 0 → ∀ log,
        logs[request.prevLogIndex]? = some log → log.term = request.prevLogTerm) ∧
      Logs.Matches request logs := by
    intro hpre
    have hle : request.leaderCommit ≤ logs.length := by
      have := hpre.length_le
      rw [List.length_take] at this
      omega
    have hprev : request.leaderCommit ≠ 0 → ∃ e, logs[request.prevLogIndex]? = some e ∧
        e.term = request.prevLogTerm := by
      intro h0
      obtain ⟨hidx, e, he, hterm⟩ := hpred h0
      refine ⟨e, ?_, hterm⟩
      obtain ⟨r, rfl⟩ := hpre
      rw [hidx, List.getElem?_append_left (by rw [List.length_take]; omega),
        List.getElem?_take_of_lt (by omega), he]
    refine ⟨hle, fun h0 log hlog => ?_, hne, ?_⟩
    · obtain ⟨e, he, hterm⟩ := hprev h0
      rw [he] at hlog
      cases hlog
      exact hterm
    · by_cases h0 : request.leaderCommit = 0
      · exact .inl h0
      · exact .inr (hprev h0)
  have ho := Logs.append_outcome hi request
  generalize Logs.append request logs = r at ho ⊢
  generalize Logs.appendNotices request logs = es at ho
  cases ho with
  | ignored hno =>
    refine .inr ⟨rfl, Nat.pos_of_ne_zero fun h0 => ?_, fun hpre => ?_, List.prefix_refl _⟩
    · exact hno ⟨⟨hne, .inl h0⟩, by omega⟩
    · obtain ⟨hle, -, hm⟩ := hmatch hpre
      exact hno ⟨hm, hle⟩
  | rolledBack hroll =>
    obtain ⟨-, h0, log, hlog, hterm⟩ := hroll
    refine .inr ⟨rfl, Nat.pos_of_ne_zero h0, fun hpre => ?_, List.take_prefix ..⟩
    exact hterm ((hmatch hpre).2.1 h0 log hlog)
  | confirmed _ hconf =>
    left
    obtain ⟨log, hl, -, hid, hterm⟩ := hconf
    have hend := hi.getLast hl
    have hlog : logs[request.leaderCommit]? = some log := by
      rw [← hid]
      exact hi.mem_iff.1 (List.mem_of_getLast? hl)
    have htake := hagree _ _ _ hlog hent hterm
    rw [List.take_of_length_le (by omega)] at htake
    rw [htake]
  | replaced hm _ _ =>
    left
    rw [h.put_eq hagree hm]
  | pushed hm he =>
    left
    have hput := h.put_eq hagree hm
    rw [he, List.take_length] at hput
    rw [hput, he]

/-! ## A round -/

/-- A leader with nothing pending that serves a peer, whose next index it takes to be `k`. -/
structure Serves (id k : Nat) (a b : Core) : Prop where
  leader : a.state = .leader
  pending : a.pending = none
  indexed : Logs.Indexed a.logs
  command : ∀ e ∈ a.logs, ∃ data, e.command = some data ∧ data ≠ []
  term_le : ∀ e ∈ a.logs, e.term ≤ a.term
  nextIndex : (a.peers.find? (·.nodeId = id)).map (·.nextIndex) = some k
  peer_term : b.term ≤ a.term
  peer_valid : b.isValid a.nodeId = true
  peer_indexed : Logs.Indexed b.logs
  agree : Logs.Agree b.logs a.logs

theorem Logs.Agree.of_prefix {p p' q : List LogEntry} (h : Logs.Agree p q) (hp : p' <+: p) :
    Logs.Agree p' q := by
  intro k e e' he he' hterm
  have hk := (List.getElem?_eq_some_iff.1 he).1
  obtain ⟨r, rfl⟩ := hp
  have := h k e e' (by rw [List.getElem?_append_left hk, he]) he' hterm
  rwa [List.take_append_of_le_length (by omega)] at this

namespace Serves

variable {id k : Nat} {a b : Core}

theorem view (h : Serves id k a b) : a.view = a.logs := Core.view_of_none h.pending

theorem fromView (h : Serves id k a b) (node : OtherNode) :
    FromView a.logs (a.appendRequest node) := by
  rw [← h.view]
  refine Core.fromView_appendRequest ?_ (fun e he => ?_) node
  · rw [h.view]
    exact h.indexed
  · rw [h.view] at he
    obtain ⟨data, hd, -⟩ := h.command e he
    rw [hd]
    rfl

/-- The entry a broadcast carries. -/
theorem appendRequest_entries (h : Serves id k a b) (node : OtherNode) :
    (node.nextIndex < a.logs.length → (a.appendRequest node).entries ≠ [] ∧
      (a.appendRequest node).leaderCommit = node.nextIndex) ∧
    (a.logs.length ≤ node.nextIndex → (a.appendRequest node).entries = []) ∧
    (a.appendRequest node).term ≤ a.term := by
  obtain ⟨i, t, hr⟩ := a.appendRequest_eq node
  rw [hr]
  unfold Core.entryRequest
  rw [h.view]
  cases hget : a.logs[node.nextIndex]? with
  | none =>
    have := List.getElem?_eq_none_iff.1 hget
    exact ⟨fun hlt => by omega, fun _ => rfl, Nat.le_refl _⟩
  | some e =>
    have hlt := (List.getElem?_eq_some_iff.1 hget).1
    have hmem := List.mem_of_getElem? hget
    obtain ⟨data, hd, hne⟩ := h.command e hmem
    refine ⟨fun _ => ⟨?_, h.indexed _ _ hget⟩, fun hge => by omega, h.term_le e hmem⟩
    simpa [hd] using hne

/-- The answer of the peer, and what it leaves of the peer. -/
theorem appendEntries_eq (h : Serves id k a b) {request : AppendEntriesRequest}
    (hid : request.leaderId = a.nodeId) :
    b.appendEntries request = (⟨b.term, (Logs.append request b.logs).1⟩,
      { b.discover request with logs := (Logs.append request b.logs).2 }) := by
  apply Core.appendEntries_of_valid
  rw [hid]
  exact h.peer_valid

/-- An answer of no newer term moves the peer's indices only. -/
theorem appendEntriesResponse_eq (h : Serves id k a b) (request : AppendEntriesRequest)
    {response : AppendEntriesResponse} (ht : response.term ≤ a.term) :
    a.appendEntriesResponse id request response = a.updatePeer id request response := by
  have hm : (a.updatePeer id request response).matching request.leaderCommit response.term =
      none := by
    unfold Core.matching
    rw [show (a.updatePeer id request response).pending = none from h.pending]
    rfl
  unfold Core.appendEntriesResponse
  rw [Core.observe_of_le (c := a.updatePeer id request response) ht]
  unfold Core.count
  rw [hm]

theorem nextIndex_updatePeer (h : Serves id k a b) (request : AppendEntriesRequest)
    (response : AppendEntriesResponse) :
    ((a.updatePeer id request response).peers.find? (·.nodeId = id)).map (·.nextIndex) =
      some (if response.success then request.leaderCommit + 1 else k - 1) := by
  obtain ⟨node, hfind, hk⟩ := Option.map_eq_some_iff.1 h.nextIndex
  have hnode : node.nodeId = id := by simpa using List.find?_some hfind
  have hids : ((fun node : OtherNode => decide (node.nodeId = id)) ∘ fun node =>
      if node.nodeId = id then Node.updateIndex request response node else node) =
      fun node => decide (node.nodeId = id) := by
    funext node
    simp only [Function.comp_apply, Node.updateIndex]
    split
    · split
      · rfl
      · split <;> rfl
    · rfl
  change ((a.peers.map fun node =>
    if node.nodeId = id then Node.updateIndex request response node else node).find?
      fun node => decide (node.nodeId = id)).map (·.nextIndex) = _
  rw [List.find?_map, hids, hfind]
  simp only [Option.map_some, hnode, if_true, Node.updateIndex]
  split
  · rfl
  · split
    · rw [hk]
    · rw [hk]
      congr 1
      omega

/-- **A round moves like a cursor and its copy.** -/
theorem exchange (h : Serves id k a b) {node : OtherNode}
    (hfind : a.peers.find? (·.nodeId = id) = some node) {a' b' : Core}
    (hb' : b' = (b.appendEntries (a.appendRequest node)).2)
    (ha' : a' = a.appendEntriesResponse id (a.appendRequest node)
      (b.appendEntries (a.appendRequest node)).1) :
    ∃ k', Serves id k' a' b' ∧ a'.logs = a.logs ∧ Lib.Sync a.logs (k, b.logs) (k', b'.logs) := by
  have hk : node.nextIndex = k := by
    have := h.nextIndex
    rw [hfind] at this
    exact Option.some.inj this
  obtain ⟨hentry, hheart, hterm⟩ := h.appendRequest_entries node
  have hfrom := h.fromView node
  have hid := a.appendRequest_leaderId node
  generalize a.appendRequest node = request at *
  rw [h.appendEntries_eq hid] at hb' ha'
  rw [h.appendEntriesResponse_eq request h.peer_term] at ha'
  have hnext := h.nextIndex_updatePeer request ⟨b.term, (Logs.append request b.logs).1⟩
  rw [← ha'] at hnext
  have hlogs : b'.logs = (Logs.append request b.logs).2 := by rw [hb']
  have hserves : ∀ k', (a'.peers.find? (·.nodeId = id)).map (·.nextIndex) = some k' →
      Logs.Indexed b'.logs → Logs.Agree b'.logs a.logs → Serves id k' a' b' := by
    intro k' hk' hi hagree
    have hdisc : (b.discover request).term ≤ a.term ∧ (b.discover request).peers = b.peers := by
      unfold Core.discover
      split
      · exact ⟨h.peer_term, rfl⟩
      · rw [Core.down_term, Core.observe_term, Core.down_peers, Core.observe_peers]
        exact ⟨Nat.max_le.2 ⟨h.peer_term, hterm⟩, rfl⟩
    rw [ha'] at hk' ⊢
    refine ⟨h.leader, h.pending, h.indexed, h.command, h.term_le, hk', ?_, ?_, hi, hagree⟩
    · rw [hb']
      exact hdisc.1
    · rw [hb']
      unfold Core.isValid
      rw [show ({ b.discover request with logs := (Logs.append request b.logs).2 } : Core).peers =
        b.peers from hdisc.2]
      exact h.peer_valid
  have hsame : a'.logs = a.logs := by rw [ha']; rfl
  rcases Nat.lt_or_ge k a.logs.length with hlt | hge
  · obtain ⟨hne, hcommit⟩ := hentry (hk ▸ hlt)
    rw [hk] at hcommit
    rcases hfrom.accepted_or_rejected hne h.peer_indexed h.agree with hacc | ⟨hrej, h0, hno, hpre⟩
    · rw [hacc] at hnext hlogs
      rw [hcommit] at hnext hlogs
      simp only [if_true] at hnext hlogs
      refine ⟨k + 1, hserves _ hnext ?_ ?_, hsame, ?_⟩
      · rw [hlogs]
        exact h.indexed.take _
      · rw [hlogs]
        intro i e e' he he' _
        rw [List.take_take]
        have := (List.getElem?_eq_some_iff.1 he).1
        rw [List.length_take] at this
        rw [Nat.min_eq_left (by omega)]
      · rw [hlogs]
        exact .accepted hlt
    · rw [hrej] at hnext
      rw [hcommit] at h0 hno
      simp only [Bool.false_eq_true, if_false] at hnext
      refine ⟨k - 1, hserves _ hnext ?_ ?_, hsame, .rejected h0 hlt hno⟩
      · rw [hlogs]
        exact h.peer_indexed.of_prefix hpre
      · rw [hlogs]
        exact h.agree.of_prefix hpre
  · have hnil := hheart (hk ▸ hge)
    have happ : Logs.append request b.logs = (false, b.logs) := by simp [Logs.append, hnil]
    rw [happ] at hnext hlogs
    simp only [Bool.false_eq_true, if_false] at hnext hlogs
    refine ⟨k - 1, hserves _ hnext ?_ ?_, hsame, ?_⟩
    · rw [hlogs]
      exact h.peer_indexed
    · rw [hlogs]
      exact h.agree
    · rw [hlogs]
      exact .past hge

end Serves

/-! ## Rounds of nodes -/

theorem requestTo_appendRequests (id : Nat) (c : Core) :
    requestTo id c.appendRequests = (c.peers.find? (·.nodeId = id)).map c.appendRequest := by
  unfold requestTo Core.appendRequests
  rw [List.findSome?_map]
  generalize c.peers = peers
  induction peers with
  | nil => rfl
  | cons node peers ih =>
    by_cases hn : node.nodeId = id
    · simp [hn]
    · simpa [List.findSome?_cons, hn] using ih

/-- A round of two nodes, in terms of their cores. -/
theorem Serves.round {id k : Nat} {a b : Node} (h : Serves id k a.core b.core) :
    ∃ k', Serves id k' (round id (a, b)).1.core (round id (a, b)).2.core ∧
      (round id (a, b)).1.core.logs = a.core.logs ∧
      Lib.Sync a.core.logs (k, b.core.logs) (k', (round id (a, b)).2.core.logs) := by
  obtain ⟨node, hfind, -⟩ := Option.map_eq_some_iff.1 h.nextIndex
  have hid : ({ a with trace := [] } : Node).LastId := fun log hl => h.indexed.getLast hl
  have hcur : a.core.current = none := Core.current_of_none h.pending
  have hbroad := Node.broadcast_eq hid
  have hreq : requestTo id (Node.broadcast { a with trace := [] }).trace =
      some (a.core.appendRequest node) := by
    rw [hbroad]
    change requestTo id ([] ++ a.core.appendRequests) = _
    rw [List.nil_append, requestTo_appendRequests, hfind]
    rfl
  have hcore : (Node.broadcast { a with trace := [] }).core = a.core := by
    rw [hbroad]
    change { a.core with pending := a.core.current } = a.core
    rw [hcur, ← h.pending]
  obtain ⟨hresp, hpeer⟩ := Node.onAppendEntriesRequested_spec (a.core.appendRequest node) b
  have hround : Foros.round id (a, b) =
      (Node.onAppendEntriesResponse .plain id (a.core.appendRequest node)
        (b.core.appendEntries (a.core.appendRequest node)).1
        (Node.broadcast { a with trace := [] }),
       (Node.onAppendEntriesRequested .plain (a.core.appendRequest node) b).2) := by
    unfold Foros.round
    simp only [hreq, hresp]
  rw [hround]
  apply h.exchange hfind hpeer.core
  have hans := (Node.onAppendEntriesResponse_spec id (a.core.appendRequest node)
    (b.core.appendEntries (a.core.appendRequest node)).1
    (Node.broadcast { a with trace := [] })).core
  rw [hcore] at hans
  exact hans

/-- The leader goes on serving its peer, from its own log. -/
theorem Serves.iterate {id k : Nat} {a b : Node} (h : Serves id k a.core b.core) (r : Nat) :
    ∃ k', Serves id k' ((Foros.round id)^[r] (a, b)).1.core ((Foros.round id)^[r] (a, b)).2.core ∧
      ((Foros.round id)^[r] (a, b)).1.core.logs = a.core.logs := by
  induction r with
  | zero => exact ⟨k, h, rfl⟩
  | succ r ih =>
    obtain ⟨k', hs, hl⟩ := ih
    rw [Function.iterate_succ_apply']
    obtain ⟨k'', hs', hl', -⟩ := hs.round
    exact ⟨k'', hs', hl'.trans hl⟩

/-- The state of the catching up after `r` rounds. -/
theorem Serves.sync {id k : Nat} {a b : Node} (h : Serves id k a.core b.core) (r : Nat) :
    let x := fun r => (((Foros.round id)^[r] (a, b)).1.nextIndex id |>.getD 0,
      ((Foros.round id)^[r] (a, b)).2.store.logs)
    Lib.Sync a.core.logs (x r) (x (r + 1)) := by
  obtain ⟨k', hs, hl⟩ := h.iterate r
  have hk : ((Foros.round id)^[r] (a, b)).1.nextIndex id = some k' := hs.nextIndex
  obtain ⟨k'', hs', -, hsync⟩ := hs.round
  rw [hl] at hsync
  change Lib.Sync _ (k', _) (k'', (Foros.round id ((Foros.round id)^[r] (a, b))).2.store.logs)
    at hsync
  have hk' : (Foros.round id ((Foros.round id)^[r] (a, b))).1.nextIndex id = some k'' :=
    hs'.nextIndex
  simp only [Function.iterate_succ_apply', hk, hk', Option.getD_some]
  exact hsync

/-- **Replication converges and then stays put.** A leader with nothing pending serves a peer of no
newer term, whose log is any log that agrees with the leader's below a shared entry, from any next
index `k`. -/
theorem replication_converges {a b : Node} {id k : Nat} (hleader : a.state = .leader)
    (hlog : a.store.logs ≠ []) (hindexed : Logs.Indexed a.store.logs)
    (hcmd : ∀ e ∈ a.store.logs, ∃ data, e.command = some data ∧ data ≠ [])
    (hterm : ∀ e ∈ a.store.logs, e.term ≤ a.store.currentTerm) (hpending : a.pendingCommit = none)
    (hnext : a.nextIndex id = some k) (hpeer : b.store.currentTerm ≤ a.store.currentTerm)
    (hvalid : b.isValidNode a.nodeId = true) (hF : Logs.Indexed b.store.logs)
    (hagree : Logs.Agree b.store.logs a.store.logs) :
    ∃ r ≤ k + a.store.logs.length + 1, ∀ r' ≥ r,
      ((round id)^[r'] (a, b)).2.store.logs = a.store.logs := by
  have hs : Serves id k a.core b.core :=
    ⟨hleader, hpending, hindexed, hcmd, hterm, hnext, hpeer, hvalid, hF, hagree⟩
  obtain ⟨r, hr, hstay⟩ := Lib.Sync.converges hs.sync hlog
  refine ⟨r, ?_, hstay⟩
  simp only [Function.iterate_zero_apply, hnext, Option.getD_some] at hr
  exact Nat.le_succ_of_le hr

/-- The peer has two entries of a deposed leader where the leader has one of its own, and the
leader takes it to be far ahead. -/
theorem replication_converges_diverged_peer :
    ∃ a b : Node, a.store.logs = [⟨0, 1, some [7]⟩, ⟨1, 3, some [8]⟩] ∧
      b.store.logs = [⟨0, 1, some [7]⟩, ⟨1, 2, some [9]⟩, ⟨2, 2, some [9]⟩] ∧
      a.nextIndex 1 = some 4 ∧ ∃ r ≤ 7, ∀ r' ≥ r,
        ((round 1)^[r'] (a, b)).2.store.logs = [⟨0, 1, some [7]⟩, ⟨1, 3, some [8]⟩] := by
  let n (me : Nat) : Node := Node.create .plain [0, 1] me .empty
  let a : Node := { n 0 with
    state := .leader
    otherNodes := [⟨1, 4, 3⟩]
    store := { (n 0).store with
      currentTerm := 3, logs := [⟨0, 1, some [7]⟩, ⟨1, 3, some [8]⟩] } }
  let b : Node := { n 1 with
    store := { (n 1).store with
      currentTerm := 2
      logs := [⟨0, 1, some [7]⟩, ⟨1, 2, some [9]⟩, ⟨2, 2, some [9]⟩] } }
  refine ⟨a, b, rfl, rfl, by decide, ?_⟩
  refine replication_converges (a := a) (b := b) (k := 4) rfl (by decide) ?_ ?_ ?_ rfl
    (by decide) (by decide) (by decide +kernel) ?_ ?_
  · exact (Logs.indexed_nil.push rfl).push rfl
  · intro e he
    rcases List.mem_pair.1 he with rfl | rfl <;> exact ⟨_, rfl, by decide⟩
  · intro e he
    rcases List.mem_pair.1 he with rfl | rfl <;> decide
  · exact ((Logs.indexed_nil.push rfl).push rfl).push rfl
  · intro i e e' he he' hterm
    match i with
    | 0 => rfl
    | 1 =>
      cases he
      cases he'
      cases hterm
    | i + 2 => cases he'

end Foros
