import Mathlib.Data.List.Basic
import Mathlib.Data.List.Infix

/-!
# Runs with their histories

A `System` steps from a state by an action, or is stuck. `S.Run ok h`: `h` lists the states of a
run from the initial one, newest first, and every step `s` by `a` meets `ok s a`. An invariant may
speak about the history (`Run.history`), about one state (`Run.forall_mem`), or relate any two
moments of a run (`Run.pairwise`). `exec` runs a list of actions.
-/

namespace Lib

structure System (σ α : Type*) where
  init : σ
  step : σ → α → Option σ

namespace System

variable {σ α : Type*} (S : System σ α)

/-- A run whose steps meet `ok`, newest state first. -/
inductive Run (ok : σ → α → Prop) : List σ → Prop
  | init : Run ok [S.init]
  | step {s s' : σ} {a : α} {h : List σ} :
      Run ok (s :: h) → ok s a → S.step s a = some s' → Run ok (s' :: s :: h)

variable {S} {ok ok' : σ → α → Prop} {h : List σ}

namespace Run

theorem mono (hr : S.Run ok h) (hok : ∀ s a, ok s a → ok' s a) : S.Run ok' h := by
  induction hr with
  | init => exact .init
  | step _ ha hs ih => exact .step ih (hok _ _ ha) hs

theorem ne_nil (hr : S.Run ok h) : h ≠ [] := by
  cases hr <;> simp

/-- A run starts in the initial state. -/
theorem init_suffix (hr : S.Run ok h) : [S.init] <:+ h := by
  induction hr with
  | init => exact List.suffix_rfl
  | step _ _ _ ih => exact ih.trans (List.suffix_cons ..)

/-- A run up to an earlier moment is a run. -/
theorem of_suffix {h' : List σ} (hr : S.Run ok h) (hs : h' <:+ h) (hne : h' ≠ []) :
    S.Run ok h' := by
  induction hr with
  | init =>
    rcases List.suffix_cons_iff.1 hs with rfl | hs
    · exact .init
    · exact absurd (List.suffix_nil.1 hs) hne
  | step hr ha hstep ih =>
    rcases List.suffix_cons_iff.1 hs with rfl | hs
    · exact .step hr ha hstep
    · exact ih hs

/-- An invariant of runs with their histories. -/
theorem history {P : List σ → Prop} (hr : S.Run ok h) (h0 : P [S.init])
    (hstep : ∀ s a s' h, S.Run ok (s :: h) → P (s :: h) → ok s a → S.step s a = some s' →
      P (s' :: s :: h)) : P h := by
  induction hr with
  | init => exact h0
  | step hr ha hs ih => exact hstep _ _ _ _ hr ih ha hs

/-- An invariant of the states of a run. -/
theorem forall_mem {P : σ → Prop} (hr : S.Run ok h) (h0 : P S.init)
    (hstep : ∀ s a s', P s → ok s a → S.step s a = some s' → P s') : ∀ s ∈ h, P s := by
  induction hr with
  | init => simpa using h0
  | step _ ha hs ih =>
    intro s hm
    rcases List.mem_cons.1 hm with rfl | hm
    · exact hstep _ _ _ (ih _ List.mem_cons_self) ha hs
    · exact ih s hm

/-- A transitive relation that every step of the run keeps relates any two of its moments, the
older on the left. -/
theorem pairwise_of_suffix {R : σ → σ → Prop} (hr : S.Run ok h)
    (htrans : ∀ a b c, R a b → R b c → R a c)
    (hstep : ∀ s a s' h', s' :: s :: h' <:+ h → S.Run ok (s :: h') → ok s a →
      S.step s a = some s' → R s s') :
    h.Pairwise fun newer older => R older newer := by
  induction hr with
  | init => simp
  | step hr ha hs ih =>
    have h1 := hstep _ _ _ _ List.suffix_rfl hr ha hs
    have ih := ih fun s a s' h' hsuf => hstep s a s' h' (hsuf.trans (List.suffix_cons ..))
    refine List.pairwise_cons.2 ⟨fun t ht => ?_, ih⟩
    rcases List.mem_cons.1 ht with rfl | ht
    · exact h1
    · exact htrans _ _ _ ((List.pairwise_cons.1 ih).1 t ht) h1

theorem pairwise {R : σ → σ → Prop} (hr : S.Run ok h) (htrans : ∀ a b c, R a b → R b c → R a c)
    (hstep : ∀ s a s' h, S.Run ok (s :: h) → ok s a → S.step s a = some s' → R s s') :
    h.Pairwise fun newer older => R older newer :=
  hr.pairwise_of_suffix htrans fun s a s' h' _ => hstep s a s' h'

/-- A run whose states all meet `P`. -/
theorem guard {P : σ → Prop} (hr : S.Run ok h) (hP : ∀ s ∈ h, P s) :
    S.Run (fun s a => ok s a ∧ P s ∧ ∃ s', S.step s a = some s') h := by
  induction hr with
  | init => exact .init
  | step _ ha hs ih =>
    have hP' : P _ := hP _ (.tail _ (.head _))
    exact .step (ih fun s hm => hP s (.tail _ hm)) ⟨ha, hP', _, hs⟩ hs

/-- A property that a step keeps exactly when it is good holds all along a run if and only if all
steps of the run are good. -/
theorem forall_mem_iff {P : σ → Prop} {good : σ → α → Prop} (hr : S.Run ok h) (h0 : P S.init)
    (hstep : ∀ s a s', s ∈ h → ok s a → S.step s a = some s' → P s → (P s' ↔ good s a)) :
    (∀ s ∈ h, P s) ↔ S.Run (fun s a => ok s a ∧ good s a) h := by
  constructor
  · intro hP
    induction hr with
    | init => exact .init
    | @step s s' a h hr ha hs ih =>
      have hprev := ih (fun s a s' hm => hstep s a s' (.tail _ hm)) fun s hm => hP s (.tail _ hm)
      have hm : s ∈ s' :: s :: h := .tail _ (.head _)
      exact .step hprev ⟨ha, (hstep s a s' hm ha hs (hP s hm)).1 (hP s' (.head _))⟩ hs
  · intro hr'
    induction hr' with
    | init => simpa using h0
    | @step s s' a h hr' ha hs ih =>
      have hprev : ∀ t ∈ s :: h, P t := ih (hr.of_suffix (List.suffix_cons ..) (by simp))
        fun s a s' hm => hstep s a s' (.tail _ hm)
      intro t ht
      rcases List.mem_cons.1 ht with rfl | ht
      · have hm : s ∈ t :: s :: h := .tail _ (.head _)
        exact (hstep s a t hm ha.1 hs (hprev s (.head _))).2 ha.2
      · exact hprev t ht

end Run

/-- Any two moments are related one way or the other. -/
theorem comparable {R : σ → σ → Prop} (hp : h.Pairwise fun newer older => R older newer)
    (hrefl : ∀ s, R s s) {s s' : σ} (hs : s ∈ h) (hs' : s' ∈ h) : R s s' ∨ R s' s := by
  induction h with
  | nil => cases hs
  | cons x h ih =>
    obtain ⟨hx, hp⟩ := List.pairwise_cons.1 hp
    rcases List.mem_cons.1 hs with rfl | hold
    · rcases List.mem_cons.1 hs' with rfl | hold'
      · exact .inl (hrefl _)
      · exact .inr (hx s' hold')
    · rcases List.mem_cons.1 hs' with rfl | hold'
      · exact .inl (hx s hold)
      · exact ih hp hold hold'

/-- The newest moment comes after all. -/
theorem le_newest {R : σ → σ → Prop} {x : σ}
    (hp : (x :: h).Pairwise fun newer older => R older newer) (hrefl : ∀ s, R s s) {s : σ}
    (hs : s ∈ x :: h) : R s x := by
  rcases List.mem_cons.1 hs with rfl | hs
  · exact hrefl _
  · exact (List.pairwise_cons.1 hp).1 s hs

/-! ## Running a list of actions -/

variable (S)

/-- The history after the actions `as`, provided every step passes the check. -/
def exec (okB : σ → α → Bool) : List α → List σ → Option (List σ)
  | [], h => some h
  | _ :: _, [] => none
  | a :: as, s :: h =>
    if okB s a then
      match S.step s a with
      | some s' => exec okB as (s' :: s :: h)
      | none => none
    else none

variable {S}

theorem Run.exec {okB : σ → α → Bool} :
    ∀ {as : List α} {h h' : List σ}, (∀ a ∈ as, ∀ s, okB s a = true → ok s a) → S.Run ok h →
      S.exec okB as h = some h' → S.Run ok h'
  | [], _, _, _, hr, he => by
    simp only [System.exec, Option.some.injEq] at he
    exact he ▸ hr
  | a :: as, [], _, _, hr, _ => absurd rfl hr.ne_nil
  | a :: as, s :: h, h', hok, hr, he => by
    simp only [System.exec] at he
    split at he
    · rename_i ha
      split at he
      · rename_i s' hs
        exact Run.exec (fun a hm => hok a (.tail _ hm)) (hr.step (hok a (.head _) s ha) hs) he
      · cases he
    · cases he

/-- A run found by evaluation, of actions that are all right. -/
theorem exists_run_of_mem (okB : σ → α → Bool) (as : List α) (check : List σ → Bool)
    (he : (S.exec okB as [S.init]).any check = true)
    (hok : ∀ a ∈ as, ∀ s, okB s a = true → ok s a) : ∃ h, S.Run ok h ∧ check h = true := by
  cases hx : S.exec okB as [S.init] with
  | none => simp [hx] at he
  | some h => exact ⟨h, Run.exec hok .init hx, by simpa [hx] using he⟩

/-- A run found by evaluation, of steps that meet a decidable `ok`. -/
theorem exists_run (ok : σ → α → Prop) [∀ s a, Decidable (ok s a)] (as : List α)
    (check : List σ → Bool)
    (he : (S.exec (fun s a => decide (ok s a)) as [S.init]).any check = true) :
    ∃ h, S.Run ok h ∧ check h = true :=
  exists_run_of_mem (fun s a => decide (ok s a)) as check he fun _ _ _ => of_decide_eq_true

end System

end Lib
