import Foros.Cluster.Proof.Step

/-!
# A step seen from one place

A step leaves a node as it is, runs one callback of it, or restarts it (`Move.node`); and a packet
in flight after a step was in flight before, or has just been sent (`Move.packet`). An invariant
about nodes or packets is proved by cases of these two.
-/

namespace Foros.Cluster

variable {cfg : Config} {s s' : Cluster} {a : Action}

/-- What a step does to node `j`. -/
inductive NodeMove (cfg : Config) (s : Cluster) (a : Action) (s' : Cluster) (j : Nat) : Prop
  | same : s'.nodes j = s.nodes j → NodeMove cfg s a s' j
  | callback {inp : Input} {client : Option Packet} {net : List Packet} {es : List Effect} :
      s.handled a = some (j, inp) → Source s j inp client net →
      (s.core j).Step inp (s'.core j) es → (s'.nodes j).visible = es → NodeMove cfg s a s' j
  | restart : s.handled a = none → s'.core j = (s.core j).restart cfg.ids →
      (s'.nodes j).visible = [] → NodeMove cfg s a s' j

theorem Move.node (hm : Move cfg s a s') (j : Nat) : NodeMove cfg s a s' j := by
  cases hm with
  | @callback i inp client net es _ hh hsrc hstep hvis hothers _ _ =>
    by_cases hji : j = i
    · subst hji
      exact .callback hh hsrc hstep hvis
    · exact .same (hothers j hji)
  | drop _ hnodes _ _ => exact .same (congrFun hnodes j)
  | @restart i _ hh hcore hvis hothers _ _ =>
    by_cases hji : j = i
    · subst hji
      exact .restart hh hcore hvis
    · exact .same (hothers j hji)

/-- The core of a node that a step leaves alone. -/
theorem core_eq {j : Nat} (h : s'.nodes j = s.nodes j) : s'.core j = s.core j :=
  congrArg Node.core h

/-- Where a packet in flight after a step comes from. -/
inductive PacketMove (cfg : Config) (s : Cluster) (s' : Cluster) (p : Packet) : Prop
  | old : p ∈ s.net → PacketMove cfg s s' p
  | sent {i : Nat} {inp : Input} {client : Option Packet} {net : List Packet} :
      i ∈ cfg.ids → Source s i inp client net →
      Sends (s.core i) i (s.boots i) client inp (s'.core i) p → PacketMove cfg s s' p

theorem Move.packet (hok : Ok cfg s) (hm : Move cfg s a s') {p : Packet} (hp : p ∈ s'.net) :
    PacketMove cfg s s' p := by
  cases hm with
  | callback hi _ hsrc hstep _ _ _ hnet =>
    rw [hnet] at hp
    rcases List.mem_append.1 hp with hp | hp
    · exact .old ((hok.input hsrc).2.2.1 p hp)
    · exact .sent hi hsrc (sends_of_step hstep hp)
  | drop _ _ _ hnet =>
    rw [hnet] at hp
    exact .old (List.mem_of_mem_eraseIdx hp)
  | restart _ _ _ _ _ _ hnet =>
    rw [hnet] at hp
    exact .old hp

theorem node_of_callback {i : Nat} {inp : Input} {client : Option Packet} {net : List Packet}
    (h : s.callback i inp client net = some s') (j : Nat) :
    s'.nodes j = s.nodes j ∨ i = j ∧ s'.nodes j = (s.nodes j).run .plain inp := by
  obtain ⟨-, rfl⟩ := callbackIn_inv h
  by_cases hji : j = i
  · subst hji
    exact .inr ⟨rfl, Function.update_self ..⟩
  · exact .inl (Function.update_of_ne hji ..)

/-- What a step makes of a node, as the code computes it. -/
theorem node_of_step (hs : step cfg s a = some s') (j : Nat) :
    s'.nodes j = s.nodes j ∨
      (∃ inp, s.handled a = some (j, inp) ∧ s'.nodes j = (s.nodes j).run .plain inp) ∨
      a = .restart j ∧ s'.nodes j = Node.create .plain cfg.ids j (s.nodes j).store.db := by
  have hcall : ∀ {i inp client net}, s.handled a = some (i, inp) →
      s.callback i inp client net = some s' → s'.nodes j = s.nodes j ∨
        (∃ inp, s.handled a = some (j, inp) ∧ s'.nodes j = (s.nodes j).run .plain inp) ∨
        a = .restart j ∧ s'.nodes j = Node.create .plain cfg.ids j (s.nodes j).store.db := by
    intro i inp client net hh hc
    rcases node_of_callback hc j with he | ⟨rfl, he⟩
    · exact .inl he
    · exact .inr (.inl ⟨inp, hh, he⟩)
  cases a with
  | electionTimer i =>
    simp only [step, stepIn, Option.ite_none_right_eq_some] at hs
    exact hcall rfl hs.2
  | broadcastTimer i =>
    simp only [step, stepIn, Option.ite_none_right_eq_some] at hs
    exact hcall rfl hs.2
  | commitCommand i command =>
    simp only [step, stepIn, Option.ite_none_right_eq_some] at hs
    exact hcall rfl hs.2
  | deliver k =>
    simp only [step, stepIn] at hs
    cases hk : s.net[k]? with
    | none => simp [hk] at hs
    | some p =>
      cases ho : s.orphan p with
      | true =>
        simp only [hk, ho, if_true, Option.some.injEq] at hs
        exact .inl (hs ▸ rfl)
      | false =>
        simp only [hk, ho, Bool.false_eq_true, if_false] at hs
        exact hcall (by simp [handled, hk, ho]) hs
  | lose k =>
    simp only [step, stepIn, Option.ite_none_right_eq_some, Option.some.injEq] at hs
    exact .inl (hs.2 ▸ rfl)
  | restart i =>
    simp only [step, stepIn, Option.ite_none_right_eq_some, Option.some.injEq] at hs
    obtain ⟨-, rfl⟩ := hs
    by_cases hji : j = i
    · subst hji
      exact .inr (.inr ⟨rfl, Function.update_self ..⟩)
    · exact .inl (Function.update_of_ne hji ..)

/-! ## Inputs that are no packets -/

/-- Only a packet in flight is handled as a message. -/
theorem handled_inv {i : Nat} {inp : Input} (hh : s.handled a = some (i, inp)) :
    (a = .electionTimer i ∧ inp = .electionTimer) ∨
    (a = .broadcastTimer i ∧ inp = .broadcastTimer) ∨
    (∃ command, a = .commitCommand i command ∧ inp = .commitCommand (some command)) ∨
    ∃ k p, a = .deliver k ∧ s.net[k]? = some p ∧ s.orphan p = false ∧ p.dst = i ∧
      inp = input p := by
  cases a with
  | electionTimer j =>
    cases hh
    exact .inl ⟨rfl, rfl⟩
  | broadcastTimer j =>
    cases hh
    exact .inr (.inl ⟨rfl, rfl⟩)
  | commitCommand j command =>
    cases hh
    exact .inr (.inr (.inl ⟨_, rfl, rfl⟩))
  | deliver k =>
    simp only [handled] at hh
    cases hk : s.net[k]? with
    | none => simp [hk] at hh
    | some p =>
      cases ho : s.orphan p with
      | true => simp [hk, ho] at hh
      | false =>
        simp only [hk, ho, Bool.false_eq_true, if_false, Option.some.injEq, Prod.mk.injEq] at hh
        exact .inr (.inr (.inr ⟨k, p, rfl, hk, ho, hh.1, hh.2.symm⟩))
  | lose k => cases hh
  | restart j => cases hh

/-- A packet is a message. -/
theorem input_ne (p : Packet) : input p ≠ .electionTimer ∧ input p ≠ .broadcastTimer ∧
    ∀ command, input p ≠ .commitCommand command := by
  unfold input
  cases p.body <;> simp

theorem electionTimer_of_handled {i : Nat} (hh : s.handled a = some (i, .electionTimer)) :
    a = .electionTimer i := by
  rcases handled_inv hh with ⟨rfl, -⟩ | ⟨-, h⟩ | ⟨_, -, h⟩ | ⟨_, p, -, -, -, -, h⟩
  · rfl
  · cases h
  · cases h
  · exact absurd h.symm (input_ne p).1

theorem commitCommand_of_handled {i : Nat} {command : Option Command}
    (hh : s.handled a = some (i, .commitCommand command)) :
    ∃ data, command = some data ∧ a = .commitCommand i data := by
  rcases handled_inv hh with ⟨-, h⟩ | ⟨-, h⟩ | ⟨data, rfl, h⟩ | ⟨_, p, -, -, -, -, h⟩
  · cases h
  · cases h
  · cases h
    exact ⟨data, rfl, rfl⟩
  · exact absurd h.symm ((input_ne p).2.2 _)

end Foros.Cluster
