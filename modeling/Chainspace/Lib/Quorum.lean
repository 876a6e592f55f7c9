/-
  Chainspace.Lib.Quorum — quorums of one membership intersect.

  `U` is the membership, `F` the members that may break the protocol. Two sets whose sizes add up to
  more than `U` and `F` together share a member that is not in `F`. The bound is exact:
  `exists_inter_card_eq` gives two sets of any size that overlap as little as possible.
-/
import Mathlib.Data.Finset.Card

namespace Chainspace.Lib

variable {α : Type} [DecidableEq α]

/-- **Quorum intersection.** -/
theorem exists_common_not_mem {U A B F : Finset α} (hA : A ⊆ U) (hB : B ⊆ U)
    (hcard : U.card + F.card < A.card + B.card) : ∃ x, x ∈ A ∧ x ∈ B ∧ x ∉ F := by
  have hunion : (A ∪ B).card ≤ U.card := Finset.card_le_card (Finset.union_subset hA hB)
  have hinter := Finset.card_union_add_card_inter A B
  have hlt : F.card < (A ∩ B).card := by omega
  obtain ⟨x, hx, hF⟩ := Finset.exists_mem_notMem_of_card_lt_card hlt
  have hx := Finset.mem_inter.mp hx
  exact ⟨x, hx.1, hx.2, hF⟩

/-- Two sets of size `q` share at least `2q - |U|` members. -/
theorem two_mul_le_card_inter {U A B : Finset α} {q : Nat} (hA : A ⊆ U) (hB : B ⊆ U)
    (hqA : A.card = q) (hqB : B.card = q) : 2 * q ≤ (A ∩ B).card + U.card := by
  have hunion : (A ∪ B).card ≤ U.card := Finset.card_le_card (Finset.union_subset hA hB)
  have hinter := Finset.card_union_add_card_inter A B
  omega

/-- **The bound is attained.**  Two sets of size `q` can share exactly `2q - |U|` members. -/
theorem exists_inter_card_eq {U : Finset α} {q : Nat} (hq : q ≤ U.card) :
    ∃ A B : Finset α, A ⊆ U ∧ B ⊆ U ∧ A.card = q ∧ B.card = q ∧ (A ∩ B).card = 2 * q - U.card := by
  obtain ⟨A, hA, hqA⟩ := Finset.exists_subset_card_eq hq
  have hrest : (U \ A).card = U.card - q := by
    rw [Finset.card_sdiff_of_subset hA, hqA]
  by_cases hfits : q ≤ (U \ A).card
  · -- the second set fits beside the first
    obtain ⟨B, hB, hqB⟩ := Finset.exists_subset_card_eq hfits
    refine ⟨A, B, hA, hB.trans Finset.sdiff_subset, hqA, hqB, ?_⟩
    have hdisj : Disjoint A B := Finset.disjoint_of_subset_right hB Finset.disjoint_sdiff
    rw [Finset.disjoint_iff_inter_eq_empty.mp hdisj, Finset.card_empty]
    omega
  -- the second set takes everything beside the first, and some of it
  obtain ⟨B, hrestB, hB, hqB⟩ :=
    Finset.exists_subsuperset_card_eq (Finset.sdiff_subset (s := U) (t := A))
      (by omega : (U \ A).card ≤ q) hq
  refine ⟨A, B, hA, hB, hqA, hqB, ?_⟩
  have hunion : A ∪ B = U := by
    apply Finset.Subset.antisymm (Finset.union_subset hA hB)
    intro x hx
    by_cases hxA : x ∈ A
    · exact Finset.mem_union_left B hxA
    · exact Finset.mem_union_right A (hrestB (Finset.mem_sdiff.mpr ⟨hx, hxA⟩))
  have hinter := Finset.card_union_add_card_inter A B
  rw [hunion] at hinter
  omega

end Chainspace.Lib
