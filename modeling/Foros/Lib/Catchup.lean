import Mathlib.Data.List.Infix

/-!
# Catching up

A copy of a list is brought up to date by a cursor `k`. At an element of the list the copy accepts,
and then holds the list up to it, or rejects, which it does only where it lacks the elements below;
past the end there is nothing to accept. An acceptance moves the cursor up, everything else moves it
down. After at most `k` rounds and one for each element the copy equals the list, and stays equal
(`Sync.converges`); each single round brings it nearer (`Sync.rank_lt`).
-/

namespace Lib

variable {α : Type*} {L : List α}

/-- One round: the cursor and the copy, before and after. -/
inductive Sync (L : List α) : Nat × List α → Nat × List α → Prop
  | past {k : Nat} {F : List α} : L.length ≤ k → Sync L (k, F) (k - 1, F)
  | accepted {k : Nat} {F : List α} : k < L.length → Sync L (k, F) (k + 1, L.take (k + 1))
  | rejected {k : Nat} {F F' : List α} : 0 < k → k < L.length → ¬ L.take k <+: F →
      Sync L (k, F) (k - 1, F')

namespace Sync

variable {x : Nat → Nat × List α}

/-- A copy that holds the list up to the cursor accepts. -/
theorem next {k : Nat} {F : List α} {y : Nat × List α} (h : Sync L (k, F) y) (hk : k < L.length)
    (hF : L.take k <+: F) : y = (k + 1, L.take (k + 1)) := by
  cases h with
  | past hle => omega
  | accepted _ => rfl
  | rejected _ _ hno => exact absurd hF hno

/-- The cursor walks down to a first acceptance. -/
theorem reaches (hx : ∀ r, Sync L (x r) (x (r + 1))) (hL : L ≠ []) :
    ∀ (k s : Nat), (x s).1 = k →
      ∃ f j, j + f = k ∧ j < L.length ∧ x (s + f + 1) = (j + 1, L.take (j + 1)) := by
  have hpos : 0 < L.length := List.length_pos_of_ne_nil hL
  intro k
  induction k with
  | zero =>
    intro s hs
    refine ⟨0, 0, rfl, hpos, ?_⟩
    have hstep := hx s
    generalize x (s + 1) = y at hstep ⊢
    generalize x s = z at hstep hs
    cases hstep with
    | past hle =>
      simp only at hs
      omega
    | accepted _ =>
      simp only at hs
      rw [hs]
    | rejected hk _ _ =>
      simp only at hs
      omega
  | succ k ih =>
    intro s hs
    -- after a round that is not accepted, the walk goes on from `k`
    have hdown : (x (s + 1)).1 = k →
        ∃ f j, j + f = k + 1 ∧ j < L.length ∧ x (s + f + 1) = (j + 1, L.take (j + 1)) := by
      intro h1
      obtain ⟨f, j, hf, hj, hxj⟩ := ih (s + 1) h1
      refine ⟨f + 1, j, by omega, hj, ?_⟩
      rw [show s + (f + 1) + 1 = s + 1 + f + 1 by omega]
      exact hxj
    have hstep := hx s
    generalize hy : x (s + 1) = y at hstep hdown
    generalize x s = z at hstep hs
    cases hstep with
    | past _ =>
      simp only at hs
      exact hdown (by simp only; omega)
    | accepted hk =>
      simp only at hs
      subst hs
      exact ⟨0, k + 1, rfl, hk, hy⟩
    | rejected _ _ _ =>
      simp only at hs
      exact hdown (by simp only; omega)

/-- From there every round is accepted, up to the end. -/
theorem climbs (hx : ∀ r, Sync L (x r) (x (r + 1))) :
    ∀ (d j s : Nat), j + d = L.length → x s = (j, L.take j) → x (s + d) = (L.length, L) := by
  intro d
  induction d with
  | zero =>
    intro j s hj hs
    rw [Nat.add_zero] at hj ⊢
    rw [hs, hj, List.take_length]
  | succ d ih =>
    intro j s hj hs
    have hstep := hx s
    rw [hs] at hstep
    have hnext := hstep.next (by omega) (List.prefix_refl _)
    have := ih (j + 1) (s + 1) (by omega) hnext
    rwa [show s + (d + 1) = s + 1 + d by omega]

/-- An equal copy stays equal: the cursor steps past the end and back. -/
theorem stays (hx : ∀ r, Sync L (x r) (x (r + 1))) (hL : L ≠ []) {s : Nat}
    (hs : x s = (L.length, L)) :
    ∀ d, x (s + d) = (L.length, L) ∨ x (s + d) = (L.length - 1, L) := by
  have hpos : 0 < L.length := List.length_pos_of_ne_nil hL
  intro d
  induction d with
  | zero => exact .inl hs
  | succ d ih =>
    have hstep := hx (s + d)
    rw [show s + (d + 1) = s + d + 1 by omega]
    rcases ih with he | he
    · rw [he] at hstep
      generalize x (s + d + 1) = y at hstep ⊢
      cases hstep with
      | past _ => exact .inr rfl
      | accepted hk => omega
      | rejected _ hk _ => omega
    · rw [he] at hstep
      rw [hstep.next (by omega) (List.take_prefix ..), Nat.sub_add_cancel hpos, List.take_length]
      exact .inl rfl

/-- **The copy catches up, and stays.** -/
theorem converges (hx : ∀ r, Sync L (x r) (x (r + 1))) (hL : L ≠ []) :
    ∃ r ≤ (x 0).1 + L.length, ∀ r' ≥ r, (x r').2 = L := by
  obtain ⟨f, j, hf, hj, hacc⟩ := reaches hx hL (x 0).1 0 rfl
  have hend := climbs hx (L.length - (j + 1)) (j + 1) (0 + f + 1) (by omega) hacc
  refine ⟨0 + f + 1 + (L.length - (j + 1)), by omega, fun r' hr' => ?_⟩
  have hstay := stays hx hL hend (r' - (0 + f + 1 + (L.length - (j + 1))))
  rw [Nat.add_sub_cancel' hr'] at hstay
  rcases hstay with he | he <;> rw [he]

/-- Past the end there is nothing to accept. -/
theorem last {k : Nat} {F : List α} {y : Nat × List α} (h : Sync L (k, F) y)
    (hk : L.length ≤ k) : y = (k - 1, F) := by
  cases h with
  | past _ => rfl
  | accepted hlt => omega
  | rejected _ hlt _ => omega

/-- How many rounds it takes at most until the copy holds the list and the cursor is at its end. -/
def rank [DecidableEq α] (L : List α) (x : Nat × List α) : Nat :=
  if x.1 ≤ L.length ∧ L.take x.1 <+: x.2 then L.length - x.1 else L.length + 1 + x.1

theorem of_rank_eq_zero [DecidableEq α] {y : Nat × List α} (h : rank L y = 0) :
    y.1 = L.length ∧ L <+: y.2 := by
  unfold rank at h
  split at h
  · rename_i hy
    have hk : y.1 = L.length := by omega
    refine ⟨hk, ?_⟩
    have hpre := hy.2
    rwa [hk, List.take_length] at hpre
  · omega

/-- A round brings the copy nearer. -/
theorem rank_lt [DecidableEq α] {y z : Nat × List α} (h : Sync L y z) (hy : rank L y ≠ 0) :
    rank L z < rank L y := by
  -- a cursor that moves down gets nearer, whether or not it comes to an acceptance
  have hdown : ∀ {k : Nat} {F F' : List α}, 0 < k → ¬ (k ≤ L.length ∧ L.take k <+: F) →
      rank L (k - 1, F') < rank L (k, F) := by
    intro k F F' hk hno
    unfold rank
    rw [if_neg hno]
    split <;> simp only <;> omega
  cases h with
  | @past k F hle =>
    -- the copy at the end of the list would be there already
    have hno : ¬ (k ≤ L.length ∧ L.take k <+: F) := fun hyes => by
      unfold rank at hy
      rw [if_pos hyes] at hy
      simp only at hy
      omega
    refine hdown (Nat.pos_of_ne_zero fun hk => hno ?_) hno
    subst hk
    exact ⟨Nat.zero_le _, List.nil_prefix⟩
  | rejected hk _ hno => exact hdown hk fun h => hno h.2
  | @accepted k F hk =>
    unfold rank
    rw [if_pos ⟨hk, List.prefix_refl _⟩]
    split <;> simp only <;> omega

end Sync

end Lib
