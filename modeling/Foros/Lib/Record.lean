import Foros.Lib.Run

/-!
# Runs with their actions

`S.record` is the system `S` that keeps the list of the actions it has taken, newest first, beside
its state. Its runs are runs of `S` (`Run.of_record`), so what holds in every run of `S` holds here
too, and an invariant may also speak about the actions (`Run.forall_record`) or count them
(`Run.forall_countP`). The steps of such a run are known, and what they meet can be compared
(`Run.record_iff`).
-/

namespace Lib.System

variable {σ α : Type*} {S : System σ α}

/-- The system with the actions it has taken, newest first. -/
def record (S : System σ α) : System (σ × List α) α where
  init := (S.init, [])
  step s a := (S.step s.1 a).map (·, a :: s.2)

theorem record_step {s s' : σ × List α} {a : α} :
    S.record.step s a = some s' ↔ S.step s.1 a = some s'.1 ∧ s'.2 = a :: s.2 := by
  obtain ⟨t', as'⟩ := s'
  simp only [record, Option.map_eq_some_iff, Prod.mk.injEq]
  constructor
  · rintro ⟨t, hs, rfl, rfl⟩
    exact ⟨hs, rfl⟩
  · rintro ⟨hs, rfl⟩
    exact ⟨t', hs, rfl, rfl⟩

variable {ok : σ × List α → α → Prop} {ok' : σ → α → Prop} {h : List (σ × List α)}

/-- Without the actions, a run of `S`. -/
theorem Run.of_record (hr : S.record.Run ok h) (hok : ∀ s a, ok s a → ok' s.1 a) :
    S.Run ok' (h.map (·.1)) := by
  induction hr with
  | init => exact .init
  | step _ ha hs ih => exact .step ih (hok _ _ ha) (record_step.1 hs).1

/-- A run with its actions shows whether its steps are good: two properties that agree in its states
hold of all its steps alike. -/
theorem Run.record_iff {good good' : σ × List α → α → Prop} (hr : S.record.Run ok h)
    (hiff : ∀ s ∈ h, ∀ a, ok s a → (good s a ↔ good' s a)) :
    S.record.Run good h ↔ S.record.Run good' h := by
  induction hr with
  | init => exact ⟨fun _ => .init, fun _ => .init⟩
  | @step s s' a h _ ha hs ih =>
    have ih := ih fun s hm => hiff s (.tail _ hm)
    have hlast : ∀ {b : α}, S.record.step s b = some s' → b = a := by
      intro b hb
      have hacts := (record_step.1 hb).2.symm.trans (record_step.1 hs).2
      exact (List.cons.inj hacts).1
    have hiff := hiff s (.tail _ (.head _)) a ha
    constructor
    · rintro (_ | ⟨hg, hb, hs'⟩)
      cases hlast hs'
      exact .step (ih.1 hg) (hiff.1 hb) hs'
    · rintro (_ | ⟨hg, hb, hs'⟩)
      cases hlast hs'
      exact .step (ih.2 hg) (hiff.2 hb) hs'

/-- A relation between a state and the actions that have led to it. -/
theorem Run.forall_record {R : σ → List α → Prop} (hr : S.record.Run ok h) (h0 : R S.init [])
    (hstep : ∀ s a s' as, s ∈ h.map (·.1) → S.step s a = some s' → R s as → R s' (a :: as)) :
    ∀ s ∈ h, R s.1 s.2 := by
  have hg := hr.guard (P := fun s => s.1 ∈ h.map (·.1)) fun s hs => List.mem_map_of_mem hs
  refine hg.forall_mem h0 fun s a s' hR ha hs => ?_
  obtain ⟨hs, hact⟩ := record_step.1 hs
  rw [hact]
  exact hstep _ _ _ _ ha.2.1 hs hR

/-- A relation between a state and a number that holds of zero at first, and of one more after
every step that counts. -/
theorem Run.forall_countP {R : σ → Nat → Prop} {counts : α → Bool} (hr : S.record.Run ok h)
    (h0 : R S.init 0)
    (hstep : ∀ s a s' n, s ∈ h.map (·.1) → S.step s a = some s' → R s n →
      R s' (n + if counts a then 1 else 0)) :
    ∀ s ∈ h, R s.1 (s.2.countP counts) := by
  refine hr.forall_record (R := fun s as => R s (as.countP counts)) h0
    fun s a s' as hs hstep' hR => ?_
  rw [List.countP_cons]
  exact hstep _ _ _ _ hs hstep' hR

end Lib.System
