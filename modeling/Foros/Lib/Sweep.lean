import Mathlib.Data.List.Basic

/-!
# Sweeping an ordered map

A loop over the entries of an ordered map that erases the dead ones. At every key, what is left is
what was there and is not dead (`getElem?_sweep`).
-/

namespace Lib

open Std

variable {κ α : Type*} {cmp : κ → κ → Ordering}

/-- The map after the dead entries of a list have been erased, one after the other. -/
def sweep (dead : α → Bool) (entries : List (κ × α)) (m : TreeMap κ α cmp) : TreeMap κ α cmp :=
  entries.foldl (fun m p => if dead p.2 then m.erase p.1 else m) m

variable {dead : α → Bool} {m : TreeMap κ α cmp}

theorem sweep_nil : sweep dead [] m = m := rfl

theorem sweep_cons_dead {p : κ × α} (h : dead p.2 = true) (entries : List (κ × α)) :
    sweep dead (p :: entries) m = sweep dead entries (m.erase p.1) := by
  unfold sweep
  rw [List.foldl_cons, if_pos h]

theorem sweep_cons_live {p : κ × α} (h : dead p.2 = false) (entries : List (κ × α)) :
    sweep dead (p :: entries) m = sweep dead entries m := by
  unfold sweep
  rw [List.foldl_cons, if_neg (by simp [h])]

variable [TransCmp cmp]

/-- A key for which a dead entry is listed is erased. -/
theorem getElem?_sweep_of_mem {k : κ} {v : α} (hd : dead v = true) :
    ∀ {entries : List (κ × α)} {m : TreeMap κ α cmp}, (k, v) ∈ entries →
      (sweep dead entries m)[k]? = none
  | p :: entries, m, h => by
    have hkeep : ∀ (l : List (κ × α)) (m : TreeMap κ α cmp), m[k]? = none →
        (sweep dead l m)[k]? = none := by
      intro l
      induction l with
      | nil => exact fun m hm => hm
      | cons q l ih =>
        intro m hm
        cases hq : dead q.2 with
        | false => rw [sweep_cons_live hq, ih m hm]
        | true =>
          rw [sweep_cons_dead hq]
          apply ih
          rw [TreeMap.getElem?_erase]
          split
          · rfl
          · exact hm
    rcases List.mem_cons.1 h with rfl | h
    · rw [sweep_cons_dead hd]
      apply hkeep
      rw [TreeMap.getElem?_erase_self]
    · cases hp : dead p.2 with
      | false => rw [sweep_cons_live hp, getElem?_sweep_of_mem hd h]
      | true => rw [sweep_cons_dead hp, getElem?_sweep_of_mem hd h]

variable [LawfulEqCmp cmp]

/-- A key keeps its value unless a dead entry is listed for it. -/
theorem getElem?_sweep_of_not_mem {k : κ} : ∀ {entries : List (κ × α)} {m : TreeMap κ α cmp},
    (∀ v, (k, v) ∈ entries → dead v = false) → (sweep dead entries m)[k]? = m[k]?
  | [], _, _ => rfl
  | p :: entries, m, h => by
    have hrest : ∀ v, (k, v) ∈ entries → dead v = false := fun v hv => h v (.tail _ hv)
    cases hp : dead p.2 with
    | false => rw [sweep_cons_live hp, getElem?_sweep_of_not_mem hrest]
    | true =>
      have hne : p.1 ≠ k := by
        rintro rfl
        rw [h p.2 (.head _)] at hp
        cases hp
      rw [sweep_cons_dead hp, getElem?_sweep_of_not_mem hrest, TreeMap.getElem?_erase,
        if_neg (by rwa [LawfulEqCmp.compare_eq_iff_eq])]

/-- **A sweep over all entries leaves exactly those that are not dead.** -/
theorem getElem?_sweep (dead : α → Bool) (m : TreeMap κ α cmp) (k : κ) :
    (sweep dead m.toList m)[k]? = m[k]?.filter fun v => !dead v := by
  cases hk : m[k]? with
  | none =>
    rw [getElem?_sweep_of_not_mem, hk]
    · rfl
    · intro v hv
      rw [TreeMap.mem_toList_iff_getElem?_eq_some, hk] at hv
      cases hv
  | some v =>
    have hv : (k, v) ∈ m.toList := TreeMap.mem_toList_iff_getElem?_eq_some.2 hk
    cases hd : dead v with
    | true =>
      rw [getElem?_sweep_of_mem hd hv, Option.filter_some, hd]
      rfl
    | false =>
      rw [getElem?_sweep_of_not_mem, hk, Option.filter_some, hd]
      · rfl
      · intro w hw
        rw [TreeMap.mem_toList_iff_getElem?_eq_some, hk] at hw
        cases hw
        exact hd

end Lib
