import Mathlib.Data.List.Basic

/-!
# Counting members

Majorities of a list of members that satisfy a predicate: two of them share a member
(`exists_of_majority`), and a member that starts to satisfy the predicate raises the count.
-/

namespace Lib

variable {α : Type*} {p q : α → Bool}

theorem countP_add_countP_le : ∀ l : List α,
    l.countP p + l.countP q ≤ l.length + l.countP fun x => p x && q x
  | [] => by simp
  | x :: l => by
    have ih := countP_add_countP_le l
    simp only [List.countP_cons, List.length_cons]
    cases p x <;> cases q x <;> simp <;> omega

/-- Two majorities share a member. -/
theorem exists_of_majority {l : List α} (hp : l.length / 2 + 1 ≤ l.countP p)
    (hq : l.length / 2 + 1 ≤ l.countP q) : ∃ x ∈ l, p x = true ∧ q x = true := by
  have hle := countP_add_countP_le (p := p) (q := q) l
  have hpos : 0 < l.countP fun x => p x && q x := by omega
  obtain ⟨x, hx, hb⟩ := List.countP_pos_iff.1 hpos
  exact ⟨x, hx, by simpa using hb⟩

/-- A member that joins raises the count. -/
theorem countP_add_one_le {u : α} : ∀ {l : List α}, u ∈ l → (∀ x ∈ l, p x = true → q x = true) →
    p u = false → q u = true → l.countP p + 1 ≤ l.countP q
  | x :: l, hu, himp, hp, hq => by
    have hrest : ∀ y ∈ l, p y = true → q y = true := fun y hy => himp y (.tail _ hy)
    rcases List.mem_cons.1 hu with rfl | hu
    · have := List.countP_mono_left hrest
      rw [List.countP_cons_of_neg (by simp [hp]), List.countP_cons_of_pos hq]
      omega
    · have ih := countP_add_one_le hu hrest hp hq
      have hx := himp x (.head _)
      simp only [List.countP_cons]
      cases hpx : p x with
      | false => simp; omega
      | true => simp [hx hpx]; omega

/-- Removing an element that counts. -/
theorem countP_eraseIdx {x : α} : ∀ {l : List α} {k : Nat}, l[k]? = some x → p x = true →
    (l.eraseIdx k).countP p + 1 = l.countP p
  | [], _, h, _ => by simp at h
  | y :: l, 0, h, hp => by
    simp only [List.getElem?_cons_zero, Option.some.injEq] at h
    subst h
    simp [hp]
  | y :: l, k + 1, h, hp => by
    have ih := countP_eraseIdx (l := l) (k := k) (by simpa using h) hp
    simp only [List.eraseIdx_cons_succ, List.countP_cons]
    omega

end Lib
