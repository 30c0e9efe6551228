import Foros.Cluster.Proof.Matching
import Foros.Lib.Reach
import Foros.Raft.Proof.Users

/-!
# Clusters whose users call back

A step with a user whose callbacks call `commit_command` shows as the step without the calls,
followed by the calls, each a step of its own (`exists_shown_step`). So a run with users shows as a
run without (`exists_shown`): its states are among those of that run, the others have logs that
are cut shorter, and with two nodes or more the same commits have succeeded. The user may not call
`commit_command` for a commit that fails because its leader steps down (`Env.Patient`).
-/

namespace Foros

namespace Cluster

variable {cfg : Config} {s s' t t' u v w : Cluster} {a : Action} {env : Env} {i : Nat}
  {h k l : List Cluster}

/-- A step with a user that calls back, but not while a leader steps down. -/
def WithUsers (ok : Cluster → Action → Prop) (s : Cluster) (a : Env × Action) : Prop :=
  a.1.User ∧ a.1.Patient ∧ ok s a.2

/-- The latest callback of node `i` fulfilled a promise with success. -/
def Acks (s : Cluster) (i promise id : Nat) (command : Option Command) : Prop :=
  .resolved promise ⟨id, command, true⟩ ∈ (s.nodes i).trace

/-! ## States that differ in their effects -/

/-- The same state, but for effects. What `t` acknowledges, `s` does. -/
structure Alike (cfg : Config) (s t : Cluster) : Prop where
  node : ∀ i, s.nodes i = { t.nodes i with trace := (s.nodes i).trace }
  boots : s.boots = t.boots
  net : s.net = t.net
  acks : 2 ≤ cfg.ids.length → ∀ i ∈ cfg.ids, ∀ promise id command,
    t.Acks i promise id command → s.Acks i promise id command

namespace Alike

theorem refl (s : Cluster) : Alike cfg s s := ⟨fun _ => rfl, rfl, rfl, fun _ _ _ _ _ _ h => h⟩

theorem trans (h : Alike cfg s t) (h' : Alike cfg t u) : Alike cfg s u where
  node i := by rw [h.node, h'.node]
  boots := h.boots.trans h'.boots
  net := h.net.trans h'.net
  acks hsize i hi promise id command hu :=
    h.acks hsize i hi _ _ _ (h'.acks hsize i hi _ _ _ hu)

theorem core (h : Alike cfg s t) (i : Nat) : s.core i = t.core i := by
  unfold Cluster.core
  rw [h.node]
  rfl

theorem handled (h : Alike cfg s t) (a : Action) : s.handled a = t.handled a := by
  unfold Cluster.handled orphan
  rw [h.net, h.boots]

/-- A callback starts without effects. -/
theorem run (h : Alike cfg s t) (env : Env) (input : Input) (i : Nat) :
    (s.nodes i).run env input = (t.nodes i).run env input := by
  rw [h.node]
  rfl

theorem avoids (h : Alike cfg s t) {bad : Node → Input → Prop}
    (hbad : ∀ (n : Node) inp tr, bad n inp → bad { n with trace := tr } inp)
    (hs : Avoids bad s a) : Avoids bad t a := by
  intro i inp hh hb
  refine hs i inp (h.handled a ▸ hh) ?_
  rw [h.node]
  exact hbad _ _ _ hb

/-- A node that has run something since `s` has run the same in `t'`: a callback, or its start,
which fulfils no promise. -/
def Ran (a : Action) (s t s' t' : Cluster) : Prop :=
  ∀ j, s'.nodes j = s.nodes j ∨ s'.nodes j = t'.nodes j ∧
    ((∃ inp, t.handled a = some (j, inp)) ∨
      ∀ promise response, .resolved promise response ∉ (s'.nodes j).trace)

theorem update (h : Alike cfg s t) (n : Node) (i : Nat) (net : List Packet) (boots : Nat → Nat) :
    Alike cfg { nodes := Function.update s.nodes i n, boots, net }
      { nodes := Function.update t.nodes i n, boots, net } := by
  refine ⟨fun j => ?_, rfl, rfl, fun hsize j hj promise id command ht => ?_⟩
  · by_cases hj : j = i
    · simp only [hj, Function.update_self]
    · simp only [Function.update_of_ne hj]
      exact h.node j
  · by_cases hji : j = i
    · simpa only [Acks, hji, Function.update_self] using ht
    · simp only [Acks, Function.update_of_ne hji] at ht ⊢
      exact h.acks hsize j hj _ _ _ ht

theorem callbackIn (h : Alike cfg s t) {inp : Input} {client : Option Packet} {net : List Packet}
    (hh : t.handled a = some (i, inp)) (hs : s.callbackIn env i inp client net = some s') :
    ∃ t', t.callbackIn env i inp client net = some t' ∧ Alike cfg s' t' ∧ Ran a s t s' t' := by
  obtain ⟨hlen, rfl⟩ := callbackIn_inv hs
  rw [h.run] at hlen
  refine ⟨_, if_pos hlen, ?_, fun j => ?_⟩
  · rw [h.run, h.boots]
    exact h.update _ i _ t.boots
  · by_cases hj : j = i
    · subst hj
      exact .inr ⟨by simp only [Function.update_self, h.run], .inl ⟨inp, hh⟩⟩
    · exact .inl (Function.update_of_ne hj ..)

/-- States that are alike take the same steps. -/
theorem stepIn (h : Alike cfg s t) (hs : stepIn cfg env s a = some s') :
    ∃ t', Cluster.stepIn cfg env t a = some t' ∧ Alike cfg s' t' ∧ Ran a s t s' t' := by
  cases a with
  | electionTimer i =>
    simp only [Cluster.stepIn, h.net] at hs ⊢
    split at hs
    · rw [if_pos ‹_›]
      exact h.callbackIn rfl hs
    · cases hs
  | broadcastTimer i =>
    simp only [Cluster.stepIn, h.net] at hs ⊢
    split at hs
    · rw [if_pos ‹_›]
      exact h.callbackIn rfl hs
    · cases hs
  | commitCommand i command =>
    simp only [Cluster.stepIn, h.net] at hs ⊢
    split at hs
    · rw [if_pos ‹_›]
      exact h.callbackIn rfl hs
    · cases hs
  | deliver k =>
    have horphan : ∀ p, s.orphan p = t.orphan p := by
      intro p
      unfold orphan
      rw [h.boots]
    simp only [Cluster.stepIn, h.net, horphan] at hs ⊢
    cases hk : t.net[k]? with
    | none => simp [hk] at hs
    | some p =>
      simp only [hk] at hs ⊢
      split at hs
      · cases hs
        rw [if_pos ‹_›]
        exact ⟨_, rfl, ⟨h.node, h.boots, rfl, h.acks⟩, fun j => .inl rfl⟩
      · rename_i ho
        rw [if_neg ho]
        exact h.callbackIn (by simp only [Cluster.handled, hk, if_neg ho]) hs
  | lose k =>
    simp only [Cluster.stepIn, h.net] at hs ⊢
    split at hs
    · cases hs
      rw [if_pos ‹_›]
      exact ⟨_, rfl, ⟨h.node, h.boots, rfl, h.acks⟩, fun j => .inl rfl⟩
    · cases hs
  | restart i =>
    simp only [Cluster.stepIn] at hs ⊢
    split at hs
    · cases hs
      rw [if_pos ‹_›]
      have hstore : (s.nodes i).store = (t.nodes i).store := by rw [h.node]
      rw [hstore, h.boots, h.net]
      refine ⟨_, rfl, h.update _ i t.net _, fun j => ?_⟩
      by_cases hj : j = i
      · subst hj
        refine .inr ⟨by simp only [Function.update_self], .inr fun promise response he => ?_⟩
        simp only [Function.update_self] at he
        exact Node.resolved_create _ _ _ _ _ he
      · exact .inl (Function.update_of_ne hj ..)
    · cases hs

end Alike

/-! ## Calls -/

/-- Only firm effects are messages. -/
theorem filterMap_firm (i boot : Nat) (client : Option Packet) (size : Nat) (es : List Effect) :
    es.filterMap (packet i boot client) =
      (es.filter (Effect.firm size)).filterMap (packet i boot client) := by
  induction es with
  | nil => rfl
  | cons e es ih =>
    cases he : e.firm size with
    | true => rw [List.filter_cons_of_pos he, List.filterMap_cons, List.filterMap_cons, ih]
    | false =>
      have hn : packet i boot client e = none := by cases e <;> simp_all [Effect.firm, packet]
      rw [List.filter_cons_of_neg (by simp [he]), List.filterMap_cons, hn, ih]

theorem filterMap_of_firm {i boot : Nat} {client : Option Packet} {n m : Node}
    (h : n.firm = m.firm) :
    n.trace.filterMap (packet i boot client) = m.trace.filterMap (packet i boot client) :=
  calc n.trace.filterMap (packet i boot client)
      = n.firm.filterMap (packet i boot client) := filterMap_firm i boot client n.clusterSize _
    _ = m.firm.filterMap (packet i boot client) := by rw [h]
    _ = m.trace.filterMap (packet i boot client) :=
        (filterMap_firm i boot client m.clusterSize _).symm

/-- Calls of node `i`, each a step of its own; newest state first. -/
abbrev Calls (cfg : Config) (i : Nat) (u : Cluster) (l : List Cluster) : Prop :=
  ((system cfg).startAt u).Run (fun _ a => ∃ command, a = .commitCommand i command) l

/-- What calls of node `i` leave of a state. -/
structure AfterCalls (i : Nat) (u w : Cluster) : Prop where
  boots : w.boots = u.boots
  net : w.net = u.net
  others : ∀ j, j ≠ i → w.nodes j = u.nodes j
  state : (w.nodes i).state = (u.nodes i).state
  term : (w.nodes i).store.currentTerm = (u.nodes i).store.currentTerm
  size : (w.nodes i).clusterSize = (u.nodes i).clusterSize
  logs : (u.nodes i).store.logs <+: (w.nodes i).store.logs

namespace AfterCalls

theorem refl (i : Nat) (u : Cluster) : AfterCalls i u u :=
  ⟨rfl, rfl, fun _ _ => rfl, rfl, rfl, rfl, List.prefix_rfl⟩

theorem trans (h : AfterCalls i u v) (h' : AfterCalls i v w) : AfterCalls i u w where
  boots := h'.boots.trans h.boots
  net := h'.net.trans h.net
  others j hj := (h'.others j hj).trans (h.others j hj)
  state := h'.state.trans h.state
  term := h'.term.trans h.term
  size := h'.size.trans h.size
  logs := h.logs.trans h'.logs

end AfterCalls

/-- One call. -/
theorem call_step {command : Command} (hs : step cfg u (.commitCommand i command) = some w) :
    AfterCalls i u w ∧ w.nodes i = (u.nodes i).run .plain (.commitCommand (some command)) ∧
      (w.nodes i).firm = [] := by
  simp only [step, stepIn] at hs
  split at hs
  · obtain ⟨-, rfl⟩ := callbackIn_inv hs
    let n : Node := { u.nodes i with trace := [] }
    have hblind := Node.blind_commitCommand (some command)
    have hfirm : (Node.commitCommand .plain (some command) n).firm = [] := hblind.firm n
    have hsize : (Node.commitCommand .plain (some command) n).clusterSize = n.clusterSize :=
      hblind.size n
    have hstay := Node.stays_commitCommand Env.plain_reentrant.mild (some command) n
    have hnet : ((u.nodes i).run .plain (.commitCommand (some command))).trace.filterMap
        (packet i (u.boots i) none) = [] := by
      rw [filterMap_firm _ _ _ n.clusterSize, ← hsize]
      exact congrArg (List.filterMap _) hfirm
    refine ⟨⟨rfl, ?_, fun j hj => Function.update_of_ne hj .., ?_, ?_, ?_, ?_⟩, ?_, ?_⟩
    · simp only [hnet, List.append_nil]
    · simp only [Function.update_self]
      exact hstay.state
    · simp only [Function.update_self]
      exact hstay.term
    · simp only [Function.update_self]
      exact hsize
    · simp only [Function.update_self]
      exact Node.logs_commitCommand (some command) n
    · exact Function.update_self ..
    · simp only [Function.update_self]
      exact hfirm
  · cases hs

theorem Calls.after (h : Calls cfg i u l) : ∀ w ∈ l, AfterCalls i u w ∧
    (w = u ∨ (w.nodes i).firm = []) := by
  refine Lib.System.Run.forall_mem h
    (P := fun w => AfterCalls i u w ∧ (w = u ∨ (w.nodes i).firm = []))
    ⟨.refl i u, .inl rfl⟩ ?_
  rintro w _ w' ⟨hw, -⟩ ⟨command, rfl⟩ hs
  obtain ⟨h1, -, h2⟩ := call_step hs
  exact ⟨hw.trans h1, .inr h2⟩

/-- Logs grow along calls. -/
theorem Calls.logs_newest (h : Calls cfg i u (v :: l)) (hw : w ∈ v :: l) : AfterCalls i w v := by
  have hp := Lib.System.Run.pairwise h (R := AfterCalls i) (fun _ _ _ => AfterCalls.trans) ?_
  · exact Lib.System.le_newest hp (fun _ => .refl i _) hw
  · rintro w _ w' _ _ ⟨command, rfl⟩ hs
    exact (call_step hs).1

/-- The calls of a callback, each as a step of its own. -/
theorem exists_calls (hi : i ∈ cfg.ids) (u : Cluster) (cs : List Command)
    (hlen : ((u.nodes i).asked cs).store.logs.length < 2 ^ 64) :
    ∃ v l, Calls cfg i u (v :: l) ∧
      v.nodes i = { (u.nodes i).asked cs with trace := (v.nodes i).trace } := by
  induction cs using List.reverseRecOn with
  | nil => exact ⟨u, [], .init, rfl⟩
  | append_singleton cs c ih =>
    rw [Node.asked_append] at hlen ⊢
    have hpre := Node.logs_commitCommand (some c) ((u.nodes i).asked cs)
    obtain ⟨v, l, hcalls, hv⟩ := ih (Nat.lt_of_le_of_lt hpre.length_le hlen)
    obtain ⟨n', es, heq, -⟩ := Node.blind_commitCommand (some c) ((u.nodes i).asked cs)
    have hrun : (v.nodes i).run .plain (.commitCommand (some c)) = { n' with
        trace := es
        broadcastTimer := ((u.nodes i).asked cs).broadcastTimer } := by
      rw [hv]
      exact heq [] _
    have hnow : ((u.nodes i).asked cs).asked [c] = { n' with
        trace := ((u.nodes i).asked cs).trace ++ es
        broadcastTimer := ((u.nodes i).asked cs).broadcastTimer } :=
      heq ((u.nodes i).asked cs).trace ((u.nodes i).asked cs).broadcastTimer
    have hstep : step cfg v (.commitCommand i c) =
        v.callback i (.commitCommand (some c)) none v.net := if_pos hi
    obtain ⟨w, hw⟩ : ∃ w, step cfg v (.commitCommand i c) = some w := by
      refine ⟨_, hstep.trans (if_pos ?_)⟩
      rw [hnow] at hlen
      rw [hrun]
      exact hlen
    refine ⟨w, v :: l, .step hcalls ⟨c, rfl⟩ hw, ?_⟩
    rw [(call_step hw).2.1, hrun, hnow]

/-! ## Steps -/

/-- The nodes of `w` have done what those of `s` have, but their logs may be shorter. -/
structure Below (cfg : Config) (w s : Cluster) : Prop where
  state : ∀ i, (w.nodes i).state = (s.nodes i).state
  term : ∀ i, (w.nodes i).store.currentTerm = (s.nodes i).store.currentTerm
  logs : ∀ i, (w.nodes i).store.logs <+: (s.nodes i).store.logs
  acks : 2 ≤ cfg.ids.length → ∀ i ∈ cfg.ids, ∀ promise id command,
    w.Acks i promise id command → s.Acks i promise id command

theorem Alike.below (h : Alike cfg s t) : Below cfg t s := by
  refine ⟨fun i => ?_, fun i => ?_, fun i => ?_, h.acks⟩
  · rw [h.node]
  · rw [h.node]
  · rw [h.node]

theorem Below.trans (h : Below cfg u t) (h' : Below cfg t s) : Below cfg u s where
  state i := (h.state i).trans (h'.state i)
  term i := (h.term i).trans (h'.term i)
  logs i := (h.logs i).trans (h'.logs i)
  acks hsize i hi _ _ _ hu := h'.acks hsize i hi _ _ _ (h.acks hsize i hi _ _ _ hu)

/-- Before the last calls of node `i`. -/
theorem AfterCalls.below (h : AfterCalls i w v) (hs : Alike cfg s v)
    (hacks : 2 ≤ cfg.ids.length → ∀ promise id command, w.Acks i promise id command →
      s.Acks i promise id command) : Below cfg w s := by
  have hb := hs.below
  have hold : ∀ j, j ≠ i → w.nodes j = v.nodes j := fun j hj => (h.others j hj).symm
  refine ⟨fun j => ?_, fun j => ?_, fun j => ?_, fun hsize j hj promise id command hack => ?_⟩
  · by_cases hji : j = i
    · rw [← hb.state j, hji, h.state]
    · rw [← hb.state j, hold j hji]
  · by_cases hji : j = i
    · rw [← hb.term j, hji, h.term]
    · rw [← hb.term j, hold j hji]
  · by_cases hji : j = i
    · exact hji ▸ h.logs.trans (hb.logs i)
    · exact hold j hji ▸ hb.logs j
  · by_cases hji : j = i
    · exact hji ▸ hacks hsize _ _ _ (hji ▸ hack)
    · refine hb.acks hsize j hj _ _ _ ?_
      simpa only [Acks, hold j hji] using hack

/-- The step `s'` of a user's run shows as the step `t'` and the calls `v :: l`. -/
structure Shown (cfg : Config) (t : Cluster) (a : Action) (s' t' v : Cluster) (l : List Cluster) :
    Prop where
  step : step cfg t a = some t'
  calls : ∃ i, Calls cfg i t' (v :: l)
  alike : Alike cfg s' v
  below : ∀ w ∈ v :: l, Below cfg w s'
  term : ∀ i, (t'.nodes i).store.currentTerm = (s'.nodes i).store.currentTerm
  /-- The commits that succeed in the callback do so without the calls. -/
  acks : 2 ≤ cfg.ids.length → ∀ i inp, t.handled a = some (i, inp) →
    ∀ promise id command, s'.Acks i promise id command → t'.Acks i promise id command

theorem Shown.suffix {r : Cluster} (h : Shown cfg t a r t' v l) : [t'] <:+ v :: l := by
  obtain ⟨i, hcalls⟩ := h.calls
  exact Lib.System.Run.init_suffix hcalls

theorem Shown.mem {r : Cluster} (h : Shown cfg t a r t' v l) : t' ∈ v :: l :=
  h.suffix.subset (.head _)

theorem mem_firm {n : Node} (hsize : 1 < n.clusterSize) {promise id : Nat}
    {command : Option Command} :
    .resolved promise ⟨id, command, true⟩ ∈ n.firm ↔
      .resolved promise ⟨id, command, true⟩ ∈ n.trace := by
  simp [Node.firm, Effect.firm, hsize]

/-- **A step with a user who calls back is the step without the calls, followed by the calls.** -/
theorem exists_shown_step (hok : Ok cfg t) (hset : ∀ i ∈ cfg.ids, (t.core i).Settled)
    (henv : env.Calling) (hpatient : env.Patient) (hd : Avoids Node.Deposed t a)
    (hs : stepIn cfg env t a = some s') : ∃ t' v l, Shown cfg t a s' t' v l := by
  have hsame : t.handled a = none → (∀ e, stepIn cfg e t a = some s') →
      ∃ t' v l, Shown cfg t a s' t' v l := fun hh hall =>
    ⟨s', s', [], hall .plain, ⟨0, .init⟩, .refl s', fun w hw => by
      rw [List.mem_singleton.1 hw]
      exact (Alike.refl s').below, fun _ => rfl, fun _ i inp hi => by rw [hh] at hi; cases hi⟩
  rcases stepIn_inv hs with ⟨i, inp, client, net, hh, hsrc, hnone, hcall⟩ | ⟨hh, hall, -⟩ |
    ⟨hh, hall, -⟩
  · have hi : i ∈ cfg.ids := by
      cases hsrc with
      | packet hk ho hdst => exact hdst ▸ (hok.packets _ (List.mem_of_getElem? hk)).dst
      | _ => exact hnone rfl
    have hnode := hok.nodes i hi
    -- what the node does, and what it does without the calls
    obtain ⟨cs, hlike⟩ := Node.run_served henv hpatient hnode.aligned
      (fun commit hc => (hnode.core.pending commit hc).1)
      (fun hp => by
        obtain ⟨commit, hc⟩ := Option.isSome_iff_exists.1 hp
        exact (hset i hi commit hc).2) (hd i inp hh)
    obtain ⟨hlen, hs'⟩ := callbackIn_inv ((hcall env).symm.trans hs)
    generalize (t.nodes i).run env inp = n at hlen hlike hs'
    generalize hm : (t.nodes i).run .plain inp = m at hlike
    have hfirm : n.firm = m.firm := hlike.firm.trans ((Node.blind_asked cs).firm m)
    have hsize : n.clusterSize = m.clusterSize := by
      rw [hlike.eq]
      exact (Node.blind_asked cs).size m
    have hasked : (m.asked cs).store.logs.length < 2 ^ 64 := by
      rw [hlike.eq] at hlen
      exact hlen
    have hnow : s'.nodes i = n := by
      rw [hs']
      exact Function.update_self ..
    have hold : ∀ j, j ≠ i → s'.nodes j = t.nodes j := by
      intro j hj
      rw [hs']
      exact Function.update_of_ne hj ..
    -- the step without the calls
    obtain ⟨t', hstep, htnow, htold, htboots, htnet⟩ : ∃ t', step cfg t a = some t' ∧
        t'.nodes i = m ∧ (∀ j, j ≠ i → t'.nodes j = t.nodes j) ∧ t'.boots = t.boots ∧
        t'.net = net ++ m.trace.filterMap (packet i (t.boots i) client) := by
      have hmlen : ((t.nodes i).run .plain inp).store.logs.length < 2 ^ 64 := by
        rw [hm]
        exact Nat.lt_of_le_of_lt (Node.logs_asked cs m).length_le hasked
      refine ⟨_, (hcall .plain).trans (if_pos hmlen), ?_, fun j hj => Function.update_of_ne hj ..,
        rfl, ?_⟩
      · exact (Function.update_self ..).trans hm
      · rw [← hm]
    have hmsize : m.clusterSize = cfg.ids.length := by
      rw [← htnow]
      exact ((hok.move hstep).2.nodes i hi).clusterSize
    obtain ⟨v, l, hcalls, hv⟩ := exists_calls hi t' cs (by rw [htnow]; exact hasked)
    rw [htnow] at hv
    have hvt := (hcalls.after v (.head _)).1
    have hvold : ∀ j, j ≠ i → v.nodes j = s'.nodes j := fun j hj =>
      ((hvt.others j hj).trans (htold j hj)).trans (hold j hj).symm
    -- the calls acknowledge nothing
    have hacks : 2 ≤ cfg.ids.length → ∀ w ∈ v :: l, ∀ promise id command,
        w.Acks i promise id command → s'.Acks i promise id command := by
      intro hN w hw promise id command hack
      obtain ⟨hwt, hwnew⟩ := hcalls.after w hw
      have hwsize : (w.nodes i).clusterSize = m.clusterSize := hwt.size.trans (by rw [htnow])
      have hmem := (mem_firm (by omega)).2 hack
      unfold Acks
      rw [hnow]
      rcases hwnew with rfl | hnil
      · rw [htnow, ← hfirm] at hmem
        exact (mem_firm (by omega)).1 hmem
      · rw [hnil] at hmem
        cases hmem
    have halike : Alike cfg s' v := by
      refine ⟨fun j => ?_, ?_, ?_, fun hN j _ promise id command hack => ?_⟩
      · by_cases hj : j = i
        · rw [hj, hnow, hv]
          exact hlike.eq
        · rw [hvold j hj]
      · rw [hvt.boots, htboots, hs']
      · rw [hvt.net, htnet, hs']
        exact congrArg (net ++ ·) (filterMap_of_firm hfirm)
      · by_cases hj : j = i
        · exact hj ▸ hacks hN v (.head _) _ _ _ (hj ▸ hack)
        · unfold Acks at hack ⊢
          rwa [← hvold j hj]
    refine ⟨t', v, l, hstep, ⟨i, hcalls⟩, halike, fun w hw =>
      (hcalls.logs_newest hw).below halike fun hN => hacks hN w hw, fun j => ?_, ?_⟩
    · rw [← halike.below.term j]
      by_cases hj : j = i
      · rw [hj, hvt.term]
      · rw [hvt.others j hj]
    · intro hN j inp' hj promise id command hack
      obtain rfl : j = i := by
        rw [hh] at hj
        cases hj
        rfl
      unfold Acks at hack ⊢
      rw [hnow] at hack
      rw [htnow]
      have hmem := (mem_firm (by omega)).2 hack
      rw [hfirm] at hmem
      exact (mem_firm (by omega)).1 hmem
  · exact hsame hh hall
  · exact hsame hh hall

/-! ## Runs -/

/-- A condition on steps that reads no effects, and that calls of `commit_command` meet. -/
structure Unaffected (cfg : Config) (ok : Cluster → Action → Prop) : Prop where
  alike : ∀ {s t : Cluster} {a : Action}, Alike cfg s t → ok s a → ok t a
  call : ∀ s i command, ok s (.commitCommand i command)
  steady : ∀ {s : Cluster} {a : Action}, ok s a → Steady s a

/-- The history `h` of a user's run shows as the history `k` of a run: every step as a step and
calls. -/
inductive Shows (cfg : Config) (ok : Cluster → Action → Prop) : List Cluster → List Cluster → Prop
  | init : Shows cfg ok [Cluster.init cfg] [Cluster.init cfg]
  | step {s s' t r t' v : Cluster} {a : Action} {h k l : List Cluster} :
      Shows cfg ok (s :: h) (t :: k) → ClusterRun cfg ok (t :: k) → ok t a →
      Shown cfg t a r t' v l → Alike cfg s t → Alike cfg s' r → Alike.Ran a s t s' r →
      Shows cfg ok (s' :: s :: h) (v :: l ++ t :: k)

namespace Shows

variable {ok : Cluster → Action → Prop}

/-- The newest states are alike. -/
theorem head (hs : Shows cfg ok (s :: h) k) : ∃ t k', k = t :: k' ∧ Alike cfg s t := by
  cases hs with
  | init => exact ⟨_, _, rfl, .refl _⟩
  | step _ _ _ hshown _ hr _ => exact ⟨_, _, rfl, hr.trans hshown.alike⟩

theorem of_suffix (hs : Shows cfg ok h k) {h' : List Cluster} (hsuf : h' <:+ h) (hne : h' ≠ []) :
    ∃ k', k' <:+ k ∧ Shows cfg ok h' k' := by
  induction hs with
  | init =>
    rcases List.suffix_cons_iff.1 hsuf with rfl | hsuf
    · exact ⟨_, List.suffix_rfl, .init⟩
    · exact absurd (List.suffix_nil.1 hsuf) hne
  | step hprev hrun ha hshown hst hr hran ih =>
    rcases List.suffix_cons_iff.1 hsuf with rfl | hsuf
    · exact ⟨_, List.suffix_rfl, .step hprev hrun ha hshown hst hr hran⟩
    · obtain ⟨k', hk', hshow⟩ := ih hsuf
      exact ⟨k', hk'.trans (List.suffix_append ..), hshow⟩

theorem mem_alike (hs : Shows cfg ok h k) : ∀ s ∈ h, ∃ t ∈ k, Alike cfg s t := by
  intro s hm
  obtain ⟨newer, older, rfl⟩ := List.append_of_mem hm
  obtain ⟨k', hk', hshow⟩ := hs.of_suffix (List.suffix_append newer (s :: older)) (by simp)
  obtain ⟨t, k'', rfl, halike⟩ := hshow.head
  exact ⟨t, hk'.subset (.head _), halike⟩

/-- What the run does, the user's run does. -/
theorem mem_below (hs : Shows cfg ok h k) : ∀ w ∈ k, ∃ s ∈ h, Below cfg w s := by
  induction hs with
  | init =>
    intro w hw
    rw [List.mem_singleton.1 hw]
    exact ⟨_, .head _, (Alike.refl _).below⟩
  | step _ _ _ hshown _ hr _ ih =>
    intro w hw
    rcases List.mem_append.1 hw with hw | hw
    · exact ⟨_, .head _, (hshown.below w hw).trans hr.below⟩
    · obtain ⟨s, hs, hb⟩ := ih w hw
      exact ⟨s, .tail _ hs, hb⟩

/-- What the user's run acknowledges, the run does, in the same term. -/
theorem acks (hs : Shows cfg ok h k) (hsize : 2 ≤ cfg.ids.length) : ∀ s ∈ h, ∀ j,
    ∀ promise id command, s.Acks j promise id command →
    ∃ w ∈ k, w.Acks j promise id command ∧
      (w.nodes j).store.currentTerm = (s.nodes j).store.currentTerm := by
  induction hs with
  | init => exact fun s hs j _ _ _ hack => ⟨s, hs, hack, rfl⟩
  | @step s s' t r t' v a h k l _ _ _ hshown _ hr hran ih =>
    intro x hx j promise id command hack
    have hold : ∀ y ∈ s :: h, y.Acks j promise id command → ∃ w ∈ v :: l ++ t :: k,
        w.Acks j promise id command ∧
          (w.nodes j).store.currentTerm = (y.nodes j).store.currentTerm := by
      intro y hy hack
      obtain ⟨w, hw, h1, h2⟩ := ih y hy j promise id command hack
      exact ⟨w, List.mem_append_right _ hw, h1, h2⟩
    rcases List.mem_cons.1 hx with rfl | hx
    · rcases hran j with hsame | ⟨hnew, ⟨inp, hh⟩ | hnone⟩
      · have hback := hold s (.head _) (by unfold Acks at hack ⊢; rwa [← hsame])
        rwa [← hsame] at hback
      · -- the callback of this step has acknowledged the commit
        have hrack : r.Acks j promise id command := by
          unfold Acks at hack ⊢
          rwa [← hnew]
        refine ⟨t', List.mem_append_left _ hshown.mem, hshown.acks hsize j inp hh _ _ _ hrack, ?_⟩
        rw [hshown.term, hnew]
      · exact absurd hack (hnone _ _)
    · exact hold x hx hack

end Shows

/-- **A run with users shows as a run.** -/
theorem exists_shown {ok : Cluster → Action → Prop} (hok : Unaffected cfg ok)
    (hr : UserRun cfg (WithUsers ok) h) : ∃ k, ClusterRun cfg ok k ∧ Shows cfg ok h k := by
  induction hr with
  | init => exact ⟨_, .init, .init⟩
  | @step s s' a h _ ha hs ih =>
    obtain ⟨k, hk, hshow⟩ := ih
    obtain ⟨t, k, rfl, halike⟩ := hshow.head
    obtain ⟨r, hrt, hr, hran⟩ := halike.stepIn hs
    have hta := hok.alike halike ha.2.2
    have hsteady : ClusterRun cfg Steady (t :: k) := hk.mono fun _ _ => hok.steady
    have hm : t ∈ t :: k := .head _
    obtain ⟨t', v, l, hshown⟩ := exists_shown_step (ClusterRun.ok hk t hm)
      (settled hsteady t hm) ha.1.calling ha.2.1 (hok.steady hta).2 hrt
    obtain ⟨j, hcalls⟩ := hshown.calls
    have hrun := Lib.System.Run.append (Lib.System.Run.step hk hta hshown.step) hcalls
    refine ⟨v :: l ++ t :: k, hrun.mono ?_, .step hshow hk hta hshown halike hr hran⟩
    rintro x _ (hx | ⟨command, rfl⟩)
    · exact hx
    · exact hok.call x j command

end Cluster

/-- A run is a user's run. -/
theorem ClusterRun.users {cfg : Config} {ok : Cluster → Action → Prop} {h : List Cluster}
    (hr : ClusterRun cfg ok h) : UserRun cfg (fun s a => a.1 = .plain ∧ ok s a.2) h := by
  induction hr with
  | init => exact .init
  | @step s s' a h _ ha hs ih =>
    have hstep : (Cluster.users cfg).step s (Env.plain, a) = some s' := hs
    exact Lib.System.Run.step ih ⟨rfl, ha⟩ hstep

/-- A user's run found by evaluation. -/
theorem UserRun.exists_onward (cfg : Config) (ok : Cluster → Action → Prop)
    [∀ s a, Decidable (ok s a)] (as : List Action) (check : List Cluster → Bool)
    (he : ((Cluster.users cfg).exec (fun s a => decide (ok s a.2)) (as.map (Env.onward, ·))
      [(Cluster.users cfg).init]).any check = true) :
    ∃ h, UserRun cfg (Cluster.WithUsers ok) h ∧ check h = true := by
  refine Lib.System.exists_run_of_mem (S := Cluster.users cfg) (fun s a => decide (ok s a.2)) _
    check he fun a ha s hok => ?_
  obtain ⟨b, -, rfl⟩ := List.mem_map.1 ha
  exact ⟨Env.onward_user, Env.onward_patient, of_decide_eq_true hok⟩

end Foros
