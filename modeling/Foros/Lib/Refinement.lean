import Foros.Lib.Run

/-!
# Refinement

`S.Refines ok A abs obs Obs`: every history of the system `S` shows as a state `abs` of the abstract
system `A`. A step of `S` shows as some steps of `A`, or as none, and what can be observed of a
history (`obs`) is allowed by the abstract state (`Obs`). A run of `S` then shows as a run of `A`
(`Refines.steps`), so the invariants of `A` hold of it (`Refines.invariant`). A part of `S` that
every step leaves alone or moves by a step of `A` is itself a run of `A` (`Run.project`).
-/

namespace Lib.System

variable {σ α τ β ω : Type*} {S : System σ α} {A : System τ β}

/-- Some steps lead from the first state to the second. -/
inductive Steps (A : System τ β) : τ → τ → Prop
  | refl (t : τ) : Steps A t t
  | tail {t t' t'' : τ} {b : β} : Steps A t t' → A.step t' b = some t'' → Steps A t t''

namespace Steps

variable {t t' t'' : τ}

theorem trans (h : A.Steps t t') (h' : A.Steps t' t'') : A.Steps t t'' := by
  induction h' with
  | refl => exact h
  | tail _ hs ih => exact .tail ih hs

theorem single {b : β} (hs : A.step t b = some t') : A.Steps t t' := .tail (.refl t) hs

/-- What every step keeps, some steps keep. -/
theorem invariant {P : τ → Prop} (h : A.Steps t t') (ht : P t)
    (hstep : ∀ t b t', P t → A.step t b = some t' → P t') : P t' := by
  induction h with
  | refl => exact ht
  | tail _ hs ih => exact hstep _ _ _ ih hs

end Steps

structure Refines (S : System σ α) (ok : σ → α → Prop) (A : System τ β) (abs : List σ → τ)
    (obs : σ → ω → Prop) (Obs : τ → ω → Prop) : Prop where
  init : abs [S.init] = A.init
  step : ∀ s a s' h, S.Run ok (s :: h) → ok s a → S.step s a = some s' →
    A.Steps (abs (s :: h)) (abs (s' :: s :: h))
  observe : ∀ s h o, S.Run ok (s :: h) → obs s o → Obs (abs (s :: h)) o

namespace Refines

variable {ok : σ → α → Prop} {abs : List σ → τ} {obs : σ → ω → Prop} {Obs : τ → ω → Prop}
  {h : List σ}

/-- A run shows as a run. -/
theorem steps (href : S.Refines ok A abs obs Obs) (hr : S.Run ok h) : A.Steps A.init (abs h) := by
  induction hr with
  | init =>
    rw [href.init]
    exact .refl _
  | step hr ha hs ih => exact ih.trans (href.step _ _ _ _ hr ha hs)

/-- The end of a run shows as steps. -/
theorem steps_of_suffix {h' : List σ} (href : S.Refines ok A abs obs Obs) (hr : S.Run ok h)
    (hs : h' <:+ h) (hne : h' ≠ []) : A.Steps (abs h') (abs h) := by
  induction hr with
  | init =>
    rcases List.suffix_cons_iff.1 hs with rfl | hs
    · exact .refl _
    · exact absurd (List.suffix_nil.1 hs) hne
  | step hr ha hstep ih =>
    rcases List.suffix_cons_iff.1 hs with rfl | hs
    · exact .refl _
    · exact (ih hs).trans (href.step _ _ _ _ hr ha hstep)

/-- An invariant of the abstract system. -/
theorem invariant {P : τ → Prop} (href : S.Refines ok A abs obs Obs) (h0 : P A.init)
    (hstep : ∀ t b t', P t → A.step t b = some t' → P t') (hr : S.Run ok h) : P (abs h) :=
  (href.steps hr).invariant h0 hstep

end Refines

/-! ## Parts of a system -/

/-- The states of a part of a run are those of a run. -/
theorem Run.project {ok : σ → α → Prop} {h : List σ} (hr : S.Run ok h) (f : σ → τ)
    (okA : τ → β → Prop) (hinit : f S.init = A.init)
    (hstep : ∀ s a s', ok s a → S.step s a = some s' →
      f s' = f s ∨ ∃ b, okA (f s) b ∧ A.step (f s) b = some (f s')) :
    ∃ k, A.Run okA k ∧ k.head? = h.head?.map f ∧ ∀ t, t ∈ k ↔ ∃ s ∈ h, f s = t := by
  induction hr with
  | init => exact ⟨[A.init], .init, by simp [hinit], by simp [hinit, eq_comm]⟩
  | @step s s' a h _ ha hs ih =>
    obtain ⟨k, hk, hhead, hmem⟩ := ih
    rcases hstep s a s' ha hs with hsame | ⟨b, hb, hsb⟩
    · refine ⟨k, hk, by simpa [hsame] using hhead, fun t => ?_⟩
      rw [hmem]
      simp [hsame]
    · obtain ⟨k, rfl⟩ : ∃ k', k = f s :: k' := by
        cases k with
        | nil => cases hhead
        | cons x k =>
          rw [show x = f s from Option.some.inj hhead]
          exact ⟨k, rfl⟩
      refine ⟨f s' :: f s :: k, .step hk hb hsb, rfl, fun t => ?_⟩
      rw [List.mem_cons, hmem, eq_comm]
      simp only [List.exists_mem_cons_iff]

end Lib.System
