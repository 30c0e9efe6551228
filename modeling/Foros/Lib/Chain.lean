import Mathlib.Data.List.Infix

/-!
# Lists made of chains

Every key `t` has a chain of lists, `Led t V`, any two of them comparable. A list is `Chained` when
each of its prefixes is a prefix of a list of its last key. Two chained lists that have the same key
at the same place agree up to there (`Chained.agree`).
-/

namespace Lib

variable {α τ : Type*} {key : α → τ} {Led Led' : τ → List α → Prop}

theorem getElem?_of_prefix {p q : List α} (hp : p <+: q) {k : Nat} (hk : k < p.length) :
    q[k]? = p[k]? := by
  obtain ⟨r, rfl⟩ := hp
  rw [List.getElem?_append_left hk]

/-- Every prefix of `q` is one of a list led by its last key. -/
def Chained (key : α → τ) (Led : τ → List α → Prop) (q : List α) : Prop :=
  ∀ (k : Nat) (e : α), q[k]? = some e → ∃ V, Led (key e) V ∧ q.take (k + 1) <+: V

namespace Chained

variable {p q : List α}

theorem nil : Chained key Led [] := by
  intro k e he
  simp at he

theorem mono (h : Chained key Led q) (hl : ∀ t V, Led t V → Led' t V) : Chained key Led' q := by
  intro k e he
  obtain ⟨V, hV, hp⟩ := h k e he
  exact ⟨V, hl _ _ hV, hp⟩

theorem of_prefix (h : Chained key Led q) (hp : p <+: q) : Chained key Led p := by
  intro k e he
  have hk : k < p.length := (List.getElem?_eq_some_iff.1 he).1
  obtain ⟨r, rfl⟩ := hp
  obtain ⟨V, hV, hpre⟩ := h k e (by rw [List.getElem?_append_left hk, he])
  rw [List.take_append_of_le_length (by omega)] at hpre
  exact ⟨V, hV, hpre⟩

/-- A list that ends in a list of its own key. -/
theorem push (h : Chained key Led q) {x : α} (hled : Led (key x) (q ++ [x])) :
    Chained key Led (q ++ [x]) := by
  intro k e he
  rcases Nat.lt_or_ge k q.length with hk | hk
  · rw [List.getElem?_append_left hk] at he
    obtain ⟨V, hV, hp⟩ := h k e he
    refine ⟨V, hV, ?_⟩
    rwa [List.take_append_of_le_length (by omega)]
  · rw [List.getElem?_append_right hk] at he
    have h0 : k - q.length = 0 := by
      have := (List.getElem?_eq_some_iff.1 he).1
      simp only [List.length_singleton] at this
      omega
    rw [h0] at he
    cases he
    exact ⟨_, hled, List.take_prefix ..⟩

/-- Two prefixes of comparable lists, as long as each other. -/
theorem take_eq_of_prefix {V V' : List α} {k : Nat} (hk : k ≤ p.length) (hk' : k ≤ q.length)
    (hp : p.take k <+: V) (hq : q.take k <+: V') (hc : V <+: V' ∨ V' <+: V) :
    p.take k = q.take k := by
  have hlen : (p.take k).length = (q.take k).length := by
    rw [List.length_take, List.length_take]
    omega
  rcases hc with hc | hc
  · exact (List.prefix_of_prefix_length_le (hp.trans hc) hq (Nat.le_of_eq hlen)).eq_of_length hlen
  · exact (List.prefix_of_prefix_length_le hp (hq.trans hc) (Nat.le_of_eq hlen)).eq_of_length hlen

/-- **The same key at the same place** means the same list up to there. -/
theorem agree (hcomp : ∀ t V V', Led t V → Led t V' → V <+: V' ∨ V' <+: V)
    (hp : Chained key Led p) (hq : Chained key Led q) {k : Nat} {e e' : α} (he : p[k]? = some e)
    (he' : q[k]? = some e') (hkey : key e = key e') : p.take (k + 1) = q.take (k + 1) := by
  obtain ⟨V, hV, hpre⟩ := hp k e he
  obtain ⟨V', hV', hpre'⟩ := hq k e' he'
  have hk := (List.getElem?_eq_some_iff.1 he).1
  have hk' := (List.getElem?_eq_some_iff.1 he').1
  exact take_eq_of_prefix (by omega) (by omega) hpre hpre' (hcomp _ _ _ hV (hkey ▸ hV'))

end Chained

end Lib
