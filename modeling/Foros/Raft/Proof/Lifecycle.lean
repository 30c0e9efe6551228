import Foros.Lib.Run
import Foros.Raft.Proof.Control
import Foros.Raft.Proof.Plain
import Mathlib.Data.List.Iterate

/-!
# The timers and the lifecycle follow the state

What runs at any moment is what the present raft state is meant to run (`Timed`): the election timer
in every state but standby, the broadcast timer in a leader and nowhere else. What a callback tells
the user is an alternation of `standby` and `active` that ends in the present lifecycle state
(`Heard`): a node is never activated twice in a row, nor deactivated. Both hold of every node that
has been started, whatever it handles and whichever of its `Put`s fail (`lifecycle_alternates`).
-/

namespace Foros

/-! ## Timers -/

namespace Node

/-- The timers that run are those of the state. -/
structure Timed (n : Node) : Prop where
  election : n.electionTimer = decide (n.state ≠ .standby)
  broadcast : n.broadcastTimer = decide (n.state = .leader)

variable {n n' : Node} {p : Nat → Bool}

theorem Timed.of_control {up : Bool} (h : Control up n n') : n.Timed → n'.Timed := by
  induction h with
  | keep hk => exact fun ht => ⟨by rw [hk.election, hk.state, ht.election],
      by rw [hk.broadcast, hk.state, ht.broadcast]⟩
  | rearm hs => exact fun ht => ⟨by simp [resetElectionTimer, startElectionTimer,
      stopElectionTimer, hs], ht.broadcast⟩
  | @enter n n' event next hev ht hn =>
    intro htimed
    have hne := ne_standby_of_transition hev ht
    refine ⟨?_, ?_⟩
    · -- only a follower comes from standby, and its timer is started
      rw [hn.election, hn.state, htimed.election, decide_eq_true hne, Bool.or_eq_true]
      by_cases hs : n.state = .standby
      · right
        rw [hs] at ht
        cases event <;> simp [transitionMap] at ht
        rw [← ht]
        rfl
      · exact .inl (decide_eq_true hs)
    · rw [hn.broadcast, hn.state, htimed.broadcast]
      cases n.state <;> cases next <;> rfl
  | trans _ _ ih ih' => exact fun ht => ih' (ih ht)

/-- **Every callback keeps the timers with the state**, whether its `Put`s succeed or not. -/
theorem Timed.run (h : n.Timed) (input : Input) : (run (.faulty p) input n).Timed := by
  obtain ⟨up, hcontrol⟩ := control_run (p := p) input n
  exact .of_control hcontrol ⟨h.election, h.broadcast⟩

/-- A node that has been started. -/
theorem Timed.create (ids : List Nat) (me : Nat) (db : LevelDB) :
    (create (.faulty p) ids me db).Timed := by
  obtain ⟨n, hs, -, h1, h2, -, he⟩ := control_create (p := p) ids me db
  rw [he]
  exact .of_control (control_handle rfl n) ⟨by rw [h1, hs]; rfl, by rw [h2, hs]; rfl⟩

end Node

/-! ## The lifecycle -/

/-- The state of the next notice. -/
def LifecycleState.next : LifecycleState → LifecycleState
  | .inactive => .standby
  | .standby => .active
  | .active => .standby

theorem LifecycleState.next_ne_inactive (state : LifecycleState) : state.next ≠ .inactive := by
  cases state <;> decide

/-- After an even number of notices a started node is in the state it was in. -/
theorem LifecycleState.iterate_next {state : LifecycleState} (hs : state ≠ .inactive) :
    ∀ k, next^[k] state = if k % 2 = 0 then state else state.next
  | 0 => rfl
  | 1 => rfl
  | k + 2 => by
    have htwice : state.next.next = state := by
      cases state with
      | inactive => exact absurd rfl hs
      | _ => rfl
    rw [Function.iterate_add_apply]
    change next^[k] state.next.next = _
    rw [htwice, iterate_next hs k, Nat.add_mod_right]

/-- The raft state and the lifecycle state agree, and the latest callback, which found the lifecycle
in the state `before`, has notified the user of the states that come next, in turn. -/
structure Node.Heard (before : LifecycleState) (n : Node) : Prop where
  aligned : n.Aligned
  alternates : ∃ k, n.told = List.iterate LifecycleState.next before.next k ∧
    n.lifecycle = LifecycleState.next^[k] before

/-- Entering a state of the raft machine tells the user nothing, or moves the lifecycle machine to
its next state. -/
theorem lifecycleMap_of_transition {up : Bool} {state next : StateType} {event : Event}
    (hev : event.up = some up) (ht : transitionMap state event = some (some next)) :
    (lifecycleMap state.lifecycle (lifecycleEvent next) = none ∧
        next.lifecycle = state.lifecycle) ∨
      lifecycleMap state.lifecycle (lifecycleEvent next) = some state.lifecycle.next ∧
        next.lifecycle = state.lifecycle.next := by
  cases state <;> cases event <;> simp only [transitionMap, Event.up] at ht hev
  all_goals
    first | cases hev; done | cases ht; done | skip
  all_goals
    cases ht
    first | exact .inl ⟨rfl, rfl⟩ | exact .inr ⟨rfl, rfl⟩

theorem Node.Heard.of_control {before : LifecycleState} {up : Bool} {n n' : Node}
    (h : Control up n n') : n.Heard before → n'.Heard before := by
  induction h with
  | keep hk =>
    rintro ⟨ha, k, hk₁, hk₂⟩
    refine ⟨?_, k, hk.told.trans hk₁, hk.lifecycle.trans hk₂⟩
    unfold Aligned at ha ⊢
    rw [hk.lifecycle, hk.state, ha]
  | rearm _ => exact fun ⟨ha, hk⟩ => ⟨ha, hk⟩
  | @enter n n' event next hev ht hn =>
    rintro ⟨ha, k, hk₁, hk₂⟩
    have hl := hn.lifecycle
    have htold := hn.told
    rw [show n.lifecycle = n.state.lifecycle from ha] at hl htold hk₂
    rcases lifecycleMap_of_transition hev ht with ⟨hmap, hsame⟩ | ⟨hmap, hnext⟩ <;>
      rw [hmap] at hl htold
    · refine ⟨?_, k, ?_, hl.trans hk₂⟩
      · rw [Aligned, hl, hn.state, hsame]
        rfl
      · rw [htold, hk₁]
        exact List.append_nil _
    · refine ⟨?_, k + 1, ?_, ?_⟩
      · rw [Aligned, hl, hn.state, hnext]
        rfl
      · rw [htold, hk₁, List.iterate_add, ← Function.iterate_succ_apply,
          Function.iterate_succ_apply', ← hk₂]
        rfl
      · rw [hl, Function.iterate_succ_apply', ← hk₂]
        rfl
  | trans _ _ ih ih' => exact fun h => ih' (ih h)

/-- No callback leads to standby. -/
theorem Node.Control.ne_standby {up : Bool} {n n' : Node} (h : Control up n n')
    (hs : n.state ≠ .standby) : n'.state ≠ .standby := by
  induction h with
  | keep hk => rwa [hk.state]
  | rearm _ => exact hs
  | enter hev ht hn =>
    rw [hn.state]
    exact ne_standby_of_transition hev ht
  | trans _ _ ih ih' => exact ih' (ih hs)

/-- A node that has been started is a follower. Nobody hears of that: no callback is registered
before the constructor has returned. -/
theorem Node.create_started (ok : Nat → Bool) (ids : List Nat) (me : Nat) (db : LevelDB) :
    (create (.faulty ok) ids me db).Aligned ∧
      (create (.faulty ok) ids me db).state = .follower := by
  obtain ⟨n, hs, hl, -, -, htold, he⟩ := control_create (p := ok) ids me db
  have hstart : Heard .inactive n := ⟨by rw [Aligned, hl, hs]; rfl, 0, by rw [htold]; rfl, hl⟩
  rw [he]
  refine ⟨(Heard.of_control (control_handle rfl n) hstart).aligned, ?_⟩
  have hstate := (handleLifecycle_control (p := ok) .standby { n with state := .follower }).1
  unfold handle handleWith
  simp only [hs, transitionMap, onEvent, exitState, lifecycleEvent, hstate, entryState,
    startElectionTimer]

/-! ## A node and what its user hears -/

/-- A node, the lifecycle states its user has registered a callback for, and the states these
callbacks have been called for, oldest first. -/
structure Listener where
  node : Node
  registered : LifecycleState → Bool
  heard : List LifecycleState

/-- `register_on_*`, and a callback of the node in which the `Put`s of `ok` succeed. -/
inductive ListenerAction
  | register (state : LifecycleState)
  | callback (ok : Nat → Bool) (input : Input)

namespace Listener

/-- The callbacks for both states a started node can be in are registered. -/
def Listens (l : Listener) : Prop := l.registered .standby = true ∧ l.registered .active = true

/-- A state without a callback is passed over (`ClusterNodeImpl::handle`). -/
def step (l : Listener) : ListenerAction → Option Listener
  | .register state => some { l with registered := Function.update l.registered state true }
  | .callback ok input =>
    let n := l.node.run (.faulty ok) input
    if l.node.readsNull input then none
    else some { l with node := n, heard := l.heard ++ n.told.filter l.registered }

/-- A node that opens the database `db`. No callback is registered until the constructor has
returned. -/
def system (ok : Nat → Bool) (ids : List Nat) (me : Nat) (db : LevelDB) :
    Lib.System Listener ListenerAction where
  init := ⟨Node.create (.faulty ok) ids me db, fun _ => false, []⟩
  step := step

/-- From one moment to a later one, all that is told is heard, and it is told in turn. -/
structure Follows (l l' : Listener) : Prop where
  listens : l.Listens → l'.Listens
  heard : l.Listens → ∃ k, l'.heard = l.heard ++
    List.iterate LifecycleState.next l.node.lifecycle.next k ∧
    l'.node.lifecycle = LifecycleState.next^[k] l.node.lifecycle

theorem Follows.trans {l l' l'' : Listener} (h : Follows l l') (h' : Follows l' l'') :
    Follows l l'' := by
  refine ⟨fun hl => h'.listens (h.listens hl), fun hl => ?_⟩
  obtain ⟨k, hheard, hlife⟩ := h.heard hl
  obtain ⟨k', hheard', hlife'⟩ := h'.heard (h.listens hl)
  refine ⟨k + k', ?_, ?_⟩
  · rw [hheard', hheard, hlife, List.iterate_add, List.append_assoc, ← Function.iterate_succ_apply,
      Function.iterate_succ_apply']
  · rw [hlife', hlife, Nat.add_comm, Function.iterate_add_apply]

/-- A started node, between two callbacks. -/
structure Started (l : Listener) : Prop where
  aligned : l.node.Aligned
  state : l.node.state ≠ .standby
  heard : .inactive ∉ l.heard

theorem Started.lifecycle {l : Listener} (h : l.Started) : l.node.lifecycle ≠ .inactive := by
  rw [h.aligned]
  cases hs : l.node.state with
  | standby => exact absurd hs h.state
  | _ => exact LifecycleState.noConfusion

/-- **What a callback tells is heard** once there is a callback for it. -/
theorem Started.step {l l' : Listener} {a : ListenerAction} (h : l.Started)
    (hs : l.step a = some l') : l'.Started ∧ Follows l l' := by
  cases a with
  | register state =>
    obtain rfl := Option.some.inj hs
    have hkeep : ∀ x, l.registered x = true → Function.update l.registered state true x = true := by
      intro x hx
      rw [Function.update_apply]
      split
      · rfl
      · exact hx
    exact ⟨⟨h.aligned, h.state, h.heard⟩, fun hl => ⟨hkeep _ hl.1, hkeep _ hl.2⟩,
      fun _ => ⟨0, (List.append_nil _).symm, rfl⟩⟩
  | callback ok input =>
    obtain ⟨-, hs⟩ := Option.ite_none_left_eq_some.1 hs
    obtain rfl := Option.some.inj hs
    obtain ⟨up, hcontrol⟩ := Node.control_run (p := ok) input l.node
    have hstart : Node.Heard l.node.lifecycle { l.node with trace := [] } :=
      ⟨h.aligned, 0, rfl, rfl⟩
    obtain ⟨ha, k, htold, hlife⟩ := Node.Heard.of_control hcontrol hstart
    have hne : .inactive ∉ (l.node.run (.faulty ok) input).told := by
      rw [htold, List.mem_iterate]
      rintro ⟨i, -, he⟩
      rw [← Function.iterate_succ_apply, Function.iterate_succ_apply'] at he
      exact LifecycleState.next_ne_inactive _ he.symm
    refine ⟨⟨ha, hcontrol.ne_standby h.state, fun hm => ?_⟩, id, fun hl => ⟨k, ?_, hlife⟩⟩
    · rcases List.mem_append.1 hm with hm | hm
      · exact h.heard hm
      · exact hne (List.mem_filter.1 hm).1
    · -- every notice is for one of the two states
      have hall : ∀ state ∈ (l.node.run (.faulty ok) input).told, l.registered state = true := by
        intro state hm
        cases state with
        | inactive => exact absurd hm hne
        | standby => exact hl.1
        | active => exact hl.2
      change l.heard ++ (l.node.run (.faulty ok) input).told.filter l.registered = _
      rw [List.filter_eq_self.2 hall, htold]

theorem Started.init (ok : Nat → Bool) (ids : List Nat) (me : Nat) (db : LevelDB) :
    (system ok ids me db).init.Started := by
  obtain ⟨ha, hs⟩ := Node.create_started ok ids me db
  refine ⟨ha, ?_, List.not_mem_nil⟩
  rw [show (system ok ids me db).init.node.state = .follower from hs]
  decide

end Listener

/-- **The lifecycle callbacks alternate.** Whatever a started node handles and whichever of its
`Put`s fail: the node is active when it leads, and from any moment on at which there are callbacks
for `standby` and `active`, the user hears of these two in turn, beginning with the state the node
was not in; the node is in the state heard last. It starts in `standby`. -/
theorem lifecycle_alternates {ok : Nat → Bool} {ids : List Nat} {me : Nat} {db : LevelDB}
    {h : List Listener} (hr : (Listener.system ok ids me db).Run (fun _ _ => True) h) :
    (Node.create (.faulty ok) ids me db).lifecycle = .standby ∧
    (∀ l ∈ h, l.node.lifecycle ≠ .inactive ∧ .inactive ∉ l.heard ∧
      (l.node.isActivated = true ↔ l.node.state = .leader)) ∧
    h.Pairwise fun newer older => older.Listens → ∃ new, newer.heard = older.heard ++ new ∧
      (∀ (k : Nat) (state : LifecycleState), new[k]? = some state →
        state = if k % 2 = 0 then older.node.lifecycle.next else older.node.lifecycle) ∧
      newer.node.lifecycle =
        if new.length % 2 = 0 then older.node.lifecycle else older.node.lifecycle.next := by
  have hstarted : ∀ l ∈ h, l.Started :=
    hr.forall_mem (Listener.Started.init ok ids me db) fun l a l' hl _ hs => (hl.step hs).1
  have hfollows := (hr.guard hstarted).pairwise (R := Listener.Follows)
    (fun _ _ _ => .trans) fun l a l' t ht ha hs => (ha.2.1.step hs).2
  refine ⟨?_, fun l hl => ?_, hfollows.imp_of_mem fun {newer older} _ hold hf hl => ?_⟩
  · obtain ⟨ha, hs⟩ := Node.create_started ok ids me db
    rw [ha, hs]
    rfl
  · have hl := hstarted l hl
    exact ⟨hl.lifecycle, hl.heard, hl.aligned.isActivated⟩
  · have hne := (hstarted older hold).lifecycle
    obtain ⟨k, hheard, hlife⟩ := hf.heard hl
    refine ⟨_, hheard, fun i state hi => ?_, ?_⟩
    · have hlt := (List.getElem?_eq_some_iff.1 hi).1
      rw [List.length_iterate] at hlt
      rw [List.getElem?_iterate _ _ _ _ hlt, ← Function.iterate_succ_apply,
        LifecycleState.iterate_next hne] at hi
      rw [← Option.some.inj hi]
      by_cases h2 : i % 2 = 0
      · rw [if_pos h2, if_neg (by omega)]
      · rw [if_neg h2, if_pos (by omega)]
    · rw [hlife, List.length_iterate, LifecycleState.iterate_next hne]

/-- A member of three whose user listens from the start is elected, and then hears of a leader it
cannot note down. -/
theorem lifecycle_alternates_failing_puts :
    ∃ l' x y l z w : Listener, (Listener.system (fun _ => true) [0, 1, 2] 0 .empty).Run
        (fun _ _ => True) [l', x, y, l, z, w] ∧
      l.Listens ∧ l.heard = [] ∧ l'.heard = [.active, .standby] ∧
      ∃ new, l'.heard = l.heard ++ new ∧ l'.node.lifecycle =
        if new.length % 2 = 0 then l.node.lifecycle else l.node.lifecycle.next := by
  obtain ⟨h, hr, hc⟩ := Lib.System.exists_run
    (S := Listener.system (fun _ => true) [0, 1, 2] 0 .empty) (fun _ _ => True)
    [.register .standby, .register .active, .callback (fun _ => true) .electionTimer,
      .callback (fun _ => true) (.requestVoteResponse ⟨1, true⟩),
      .callback (fun _ => false) (.appendEntries { term := 2, leaderId := 1 })]
    (fun
      | [l', _, _, l, _, _] => l.registered .standby && l.registered .active && l.heard.isEmpty &&
          decide (l'.heard = [.active, .standby])
      | _ => false)
    (by decide +kernel)
  split at hc
  · rename_i l' x y l z w
    simp only [Bool.and_eq_true, List.isEmpty_iff, decide_eq_true_eq] at hc
    obtain ⟨⟨⟨h1, h2⟩, h3⟩, h4⟩ := hc
    have hrel := (List.pairwise_cons.1 (lifecycle_alternates hr).2.2).1 l (by simp)
    obtain ⟨new, hnew, -, hlife⟩ := hrel ⟨h1, h2⟩
    exact ⟨l', x, y, l, z, w, hr, ⟨h1, h2⟩, h3, h4, new, hnew, hlife⟩
  · cases hc

end Foros
