/-
  Chainspace.Lib.OrderStat — the size of a selected value, by counting.

  A value picked from a sorted list by its position is bounded by a limit exactly when few enough
  values exceed the limit; so a percentile can be described without sorting.
-/
import Mathlib.Data.List.Sort

namespace Chainspace.Lib

open List

/-- In an ascending list, the value at a position is at most `L` exactly when those above `L` fit
behind it. -/
theorem getElem_le_iff_of_pairwise {l : List Nat} (hl : l.Pairwise (· ≤ ·)) {i : Nat}
    (hi : i < l.length) (L : Nat) :
    l[i] ≤ L ↔ (l.filter (L < ·)).length ≤ l.length - (i + 1) := by
  constructor
  · intro hle
    -- Nothing up to the position exceeds `L`.
    have hfront : (l.take (i + 1)).filter (L < ·) = [] := by
      rw [filter_eq_nil_iff]
      intro x hx
      obtain ⟨j, hj, rfl⟩ := mem_iff_getElem.mp hx
      rw [length_take] at hj
      rw [getElem_take]
      have hxi : l[j] ≤ l[i] := by
        rcases Nat.lt_or_eq_of_le (Nat.le_of_lt_succ (show j < i + 1 by omega)) with hji | hji
        · exact pairwise_iff_getElem.mp hl j i (by omega) hi hji
        · subst hji
          exact Nat.le_refl _
      simp only [decide_eq_true_eq]
      omega
    calc (l.filter (L < ·)).length
        = ((l.take (i + 1) ++ l.drop (i + 1)).filter (L < ·)).length := by
          rw [take_append_drop]
      _ = ((l.drop (i + 1)).filter (L < ·)).length := by
          rw [filter_append, hfront, nil_append]
      _ ≤ (l.drop (i + 1)).length := length_filter_le _ _
      _ = l.length - (i + 1) := length_drop
  intro hcount
  by_contra hlt
  -- Everything from the position on exceeds `L`.
  have hback : (l.drop i).filter (L < ·) = l.drop i := by
    rw [filter_eq_self]
    intro x hx
    obtain ⟨j, hj, rfl⟩ := mem_iff_getElem.mp hx
    rw [length_drop] at hj
    rw [getElem_drop]
    have hix : l[i] ≤ l[i + j] := by
      rcases Nat.eq_zero_or_pos j with hj0 | hj0
      · subst hj0
        exact Nat.le_refl _
      · exact pairwise_iff_getElem.mp hl i (i + j) hi (by omega) (by omega)
    simp only [decide_eq_true_eq]
    omega
  have hmany : (l.drop i).length ≤ (l.filter (L < ·)).length := by
    calc (l.drop i).length = ((l.drop i).filter (L < ·)).length := by rw [hback]
      _ ≤ (l.filter (L < ·)).length := ((drop_sublist i l).filter _).length_le
  rw [length_drop] at hmany
  omega

/-- **A percentile by counting.** -/
theorem insertionSort_getElem?_le_iff {l : List Nat} {i x : Nat}
    (hx : (l.insertionSort (· ≤ ·))[i]? = some x) (L : Nat) :
    x ≤ L ↔ (l.filter (L < ·)).length ≤ l.length - (i + 1) := by
  obtain ⟨hi, rfl⟩ := List.getElem?_eq_some_iff.mp hx
  have hperm := perm_insertionSort (· ≤ ·) l
  rw [getElem_le_iff_of_pairwise (pairwise_insertionSort (· ≤ ·) l) hi L,
    (hperm.filter _).length_eq, hperm.length_eq]

/-- The largest of some values and a start is at most `L` exactly when all are. -/
theorem foldl_max_le_iff {l : List Nat} {a L : Nat} :
    l.foldl max a ≤ L ↔ a ≤ L ∧ (l.filter (L < ·)).length = 0 := by
  induction l generalizing a with
  | nil => simp
  | cons x l ih =>
    rw [foldl_cons, ih, filter_cons]
    by_cases hx : L < x
    · rw [if_pos (decide_eq_true hx)]
      constructor
      · intro h
        omega
      · intro h
        exact absurd h.2 (by simp)
    rw [if_neg (by simpa using hx)]
    constructor
    all_goals
      intro h
      exact ⟨by omega, h.2⟩

end Chainspace.Lib
