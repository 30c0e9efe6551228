import Foros.Lib.Refinement
import Foros.Raft.Types
import Mathlib.Data.Set.Insert

/-!
# What a cluster is for

A cluster keeps at most one node of a term active, and keeps a list of commands whose places are
written once. The ledger is that without nodes, messages or logs: who has been active in which
term, and which command has been acknowledged for which id, by the active node of which term. An
active node may answer a read of an id that is in the ledger only with the command that stands
there, as far as its term is not older (`Ledger.Allows`).
-/

namespace Foros

structure Ledger where
  /-- Terms with their active nodes. -/
  active : Set (Nat × Nat)
  /-- Terms, ids and acknowledged commands. -/
  entries : Set (Nat × Nat × Option Command)

/-- What the users of a cluster see happen. -/
inductive LedgerAction
  | activate (term node : Nat)
  | acknowledge (term node id : Nat) (command : Option Command)

/-- A read: the term of the active node that is asked, the id, and the command it answers. -/
structure Reading where
  term : Nat
  id : Nat
  command : Option Command

namespace Ledger

open Classical in
/-- A term has one active node, an id has one command, and only an active node acknowledges. -/
noncomputable def step (l : Ledger) : LedgerAction → Option Ledger
  | .activate term node =>
    if ∀ other, (term, other) ∈ l.active → other = node then
      some { l with active := insert (term, node) l.active }
    else none
  | .acknowledge term node id command =>
    if (term, node) ∈ l.active ∧
        ∀ term' command', (term', id, command') ∈ l.entries → command' = command then
      some { l with entries := insert (term, id, command) l.entries }
    else none

noncomputable def system : Lib.System Ledger LedgerAction where
  init := ⟨∅, ∅⟩
  step := step

/-- The answers an active node may give to a read. -/
def Allows (l : Ledger) (r : Reading) : Prop :=
  ∀ term command, (term, r.id, command) ∈ l.entries → term ≤ r.term → r.command = command

/-- Every term has one active node, and every id one command. -/
structure Unique (l : Ledger) : Prop where
  active : ∀ term i j, (term, i) ∈ l.active → (term, j) ∈ l.active → i = j
  entries : ∀ term term' id c c', (term, id, c) ∈ l.entries → (term', id, c') ∈ l.entries → c = c'

variable {l l' : Ledger}

theorem Unique.init : Unique system.init := ⟨nofun, nofun⟩

theorem Unique.step {a : LedgerAction} (h : Unique l) (hs : l.step a = some l') : Unique l' := by
  cases a with
  | activate term node =>
    simp only [Ledger.step, Option.ite_none_right_eq_some, Option.some.injEq] at hs
    obtain ⟨hguard, rfl⟩ := hs
    refine ⟨fun t i j hi hj => ?_, h.entries⟩
    rcases Set.mem_insert_iff.1 hi with hi' | hi'
    · cases hi'
      rcases Set.mem_insert_iff.1 hj with hj' | hj'
      · cases hj'
        rfl
      · exact (hguard j hj').symm
    · rcases Set.mem_insert_iff.1 hj with hj' | hj'
      · cases hj'
        exact hguard i hi'
      · exact h.active t i j hi' hj'
  | acknowledge term node id command =>
    simp only [Ledger.step, Option.ite_none_right_eq_some, Option.some.injEq] at hs
    obtain ⟨⟨-, hguard⟩, rfl⟩ := hs
    refine ⟨h.active, fun t t' k c c' hc hc' => ?_⟩
    rcases Set.mem_insert_iff.1 hc with heq | hc
    · cases heq
      rcases Set.mem_insert_iff.1 hc' with heq' | hc'
      · cases heq'
        rfl
      · exact (hguard _ _ hc').symm
    · rcases Set.mem_insert_iff.1 hc' with heq' | hc'
      · cases heq'
        exact hguard _ _ hc
      · exact h.entries t t' k c c' hc hc'

/-- Nodes that become active one after the other. -/
theorem steps_activate (l : Ledger) : ∀ new : List (Nat × Nat),
    (∀ x ∈ new, ∀ i, (x.1, i) ∈ l.active ∨ (x.1, i) ∈ new → i = x.2) →
    system.Steps l { l with active := l.active ∪ {x | x ∈ new} }
  | [], _ => by
    have : l.active ∪ {x | x ∈ ([] : List (Nat × Nat))} = l.active := by simp
    rw [this]
    exact .refl l
  | x :: new, h => by
    have hone : system.step l (.activate x.1 x.2) = some { l with active := insert x l.active } :=
      if_pos fun i hi => h x (.head _) i (.inl hi)
    have hrest := steps_activate { l with active := insert x l.active } new fun y hy i hi => by
      apply h y (.tail _ hy) i
      rcases hi with hi | hi
      · rcases Set.mem_insert_iff.1 hi with heq | hi
        · exact .inr (heq ▸ .head _)
        · exact .inl hi
      · exact .inr (.tail _ hi)
    have hset : insert x l.active ∪ {y | y ∈ new} = l.active ∪ {y | y ∈ x :: new} := by
      ext y
      simp only [Set.mem_union, Set.mem_insert_iff, Set.mem_ofPred_eq, List.mem_cons]
      tauto
    rw [← hset]
    exact (Lib.System.Steps.single hone).trans hrest

/-- Acknowledgements one after the other. -/
theorem steps_acknowledge (l : Ledger) : ∀ new : List (Nat × Nat × Option Command),
    (∀ x ∈ new, (∃ node, (x.1, node) ∈ l.active) ∧
      ∀ t c, (t, x.2.1, c) ∈ l.entries ∨ (t, x.2.1, c) ∈ new → c = x.2.2) →
    system.Steps l { l with entries := l.entries ∪ {x | x ∈ new} }
  | [], _ => by
    have : l.entries ∪ {x | x ∈ ([] : List (Nat × Nat × Option Command))} = l.entries := by simp
    rw [this]
    exact .refl l
  | x :: new, h => by
    obtain ⟨⟨node, hnode⟩, hx⟩ := h x (.head _)
    have hone : system.step l (.acknowledge x.1 node x.2.1 x.2.2) =
        some { l with entries := insert x l.entries } :=
      if_pos ⟨hnode, fun t c hc => hx t c (.inl hc)⟩
    have hrest := steps_acknowledge { l with entries := insert x l.entries } new fun y hy => by
      obtain ⟨h1, h2⟩ := h y (.tail _ hy)
      refine ⟨h1, fun t c hc => h2 t c ?_⟩
      rcases hc with hc | hc
      · rcases Set.mem_insert_iff.1 hc with heq | hc
        · exact .inr (heq ▸ .head _)
        · exact .inl hc
      · exact .inr (.tail _ hc)
    have hset : insert x l.entries ∪ {y | y ∈ new} = l.entries ∪ {y | y ∈ x :: new} := by
      ext y
      simp only [Set.mem_union, Set.mem_insert_iff, Set.mem_ofPred_eq, List.mem_cons]
      tauto
    rw [← hset]
    exact (Lib.System.Steps.single hone).trans hrest

end Ledger

end Foros
