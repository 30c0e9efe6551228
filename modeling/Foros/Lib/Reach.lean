import Foros.Lib.Run

/-!
# What a system can do

`S.Reach may Q s`: from the state `s`, steps that `may` be taken can lead to a state that meets `Q`.
This says that something stays possible, not that it happens. `Reach.bind` chains two such paths,
and `Reach.of_measure` takes as many steps as a measure asks for. `S.startAt s` is the system
started in `s`; its runs continue those of `S` that end in `s` (`Run.append`).
-/

namespace Lib.System

variable {σ α : Type*} {S : System σ α}

inductive Reach (S : System σ α) (may : σ → α → Prop) (Q : σ → Prop) : σ → Prop
  | here {s : σ} : Q s → Reach S may Q s
  | next {s s' : σ} {a : α} : may s a → S.step s a = some s' → Reach S may Q s' → Reach S may Q s

namespace Reach

variable {may : σ → α → Prop} {Q Q' : σ → Prop} {s : σ}

theorem bind (h : S.Reach may Q s) (k : ∀ s', Q s' → S.Reach may Q' s') : S.Reach may Q' s := by
  induction h with
  | here hq => exact k _ hq
  | next ha hs _ ih => exact .next ha hs ih

theorem mono (h : S.Reach may Q s) (hq : ∀ s', Q s' → Q' s') : S.Reach may Q' s :=
  h.bind fun s' hs => .here (hq s' hs)

/-- More steps may be taken. -/
theorem allow {may' : σ → α → Prop} (h : S.Reach may Q s) (hmay : ∀ s a, may s a → may' s a) :
    S.Reach may' Q s := by
  induction h with
  | here hq => exact .here hq
  | next ha hs _ ih => exact .next (hmay _ _ ha) hs ih

theorem step {s' : σ} {a : α} (ha : may s a) (hs : S.step s a = some s') (hq : Q s') :
    S.Reach may Q s :=
  .next ha hs (.here hq)

/-- What every step keeps holds at the end. -/
theorem keep {P : σ → Prop} (h : S.Reach may Q s) (hs : P s)
    (hstep : ∀ s a s', P s → S.step s a = some s' → P s') :
    S.Reach may (fun s' => Q s' ∧ P s') s := by
  induction h with
  | here hq => exact .here ⟨hq, hs⟩
  | next ha hs' _ ih => exact .next ha hs' (ih (hstep _ _ _ hs hs'))

/-- From a state of the invariant, the goal or a state of the invariant with a smaller measure is
reached. -/
theorem of_measure {P : σ → Prop} (m : σ → Nat)
    (hstep : ∀ s, P s → S.Reach may (fun s' => Q s' ∨ P s' ∧ m s' < m s) s) (hs : P s) :
    S.Reach may Q s := by
  induction hm : m s using Nat.strong_induction_on generalizing s with
  | _ k ih =>
    refine (hstep s hs).bind fun s' hs' => ?_
    rcases hs' with hq | ⟨hp, hlt⟩
    · exact .here hq
    · exact ih (m s') (hm ▸ hlt) hp rfl

end Reach

/-! ## Starting in another state -/

/-- The system started in the state `s`. -/
def startAt (S : System σ α) (s : σ) : System σ α := { S with init := s }

/-- A run and its continuation. -/
theorem Run.append {ok ok' : σ → α → Prop} {s : σ} {h k : List σ} (hr : S.Run ok (s :: h))
    (hk : (S.startAt s).Run ok' k) : S.Run (fun s a => ok s a ∨ ok' s a) (k ++ h) := by
  induction hk with
  | init => exact hr.mono fun _ _ => .inl
  | step _ ha hs ih => exact .step ih (.inr ha) hs

/-- A run and a continuation of it, found by evaluation. -/
theorem exists_continuation (ok ok' : σ → α → Prop) [∀ s a, Decidable (ok s a)]
    [∀ s a, Decidable (ok' s a)] (as bs : List α) (check : σ → List σ → Bool)
    (he : ((S.exec (fun s a => decide (ok s a)) as [S.init]).any fun
      | [] => false
      | s :: _ => ((S.startAt s).exec (fun s a => decide (ok' s a)) bs [s]).any (check s)) =
      true) :
    ∃ s h k, S.Run ok (s :: h) ∧ (S.startAt s).Run ok' k ∧ check s k = true := by
  cases hx : S.exec (fun s a => decide (ok s a)) as [S.init] with
  | none => simp [hx] at he
  | some h =>
    have hr : S.Run ok h := Run.exec (fun _ _ _ => of_decide_eq_true) .init hx
    cases h with
    | nil => exact absurd rfl hr.ne_nil
    | cons s h =>
      simp only [hx, Option.any_some] at he
      cases hy : (S.startAt s).exec (fun s a => decide (ok' s a)) bs [s] with
      | none => simp [hy] at he
      | some k =>
        refine ⟨s, h, k, hr, ?_, by simpa [hy] using he⟩
        exact Run.exec (S := S.startAt s) (fun _ _ _ => of_decide_eq_true) .init hy

end Lib.System
