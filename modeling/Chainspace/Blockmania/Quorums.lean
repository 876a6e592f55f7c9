/-
  Chainspace.Blockmania.Quorums — do the quorums that `New` computes intersect?

  `New` accepts any number of nodes and sets `f = (n - 1) / 3` and `quorum2f1 = 2 f + 1`. Two
  quorums share more than `f` nodes exactly when the number of nodes is one more than a multiple of
  three (`quorums_intersect_iff`); for other sizes `f` is rounded down.
-/
import Chainspace.Lib.Quorum
import Chainspace.Blockmania.Graph

namespace Chainspace.Blockmania

open Chainspace.Lib

def faultsOf (nodes : List Nat) : Nat := (nodes.length - 1) / 3

@[simp] theorem new_quorum2f1 (nodes : List Nat) (lastInterpreted : Nat) (grow : Nat → Nat) :
    (new nodes lastInterpreted grow).params.quorum2f1 = 2 * faultsOf nodes + 1 := rfl

/-- Quorums intersect in an honest node: two sets of `quorum2f1` nodes share at least `f + 1`, and
so do two vote sets that reached `quorum2f1` prepare votes. -/
structure QuorumsIntersect (nodes : List Nat) (quorum2f1 : Nat) : Prop where
  sets : ∀ A B : Finset Nat, A ⊆ nodes.toFinset → B ⊆ nodes.toFinset →
    A.card = quorum2f1 → B.card = quorum2f1 → faultsOf nodes + 1 ≤ (A ∩ B).card
  votes : ∀ b b' : Bitset, b.preparers ⊆ nodes.toFinset → b'.preparers ⊆ nodes.toFinset →
    (b.preparers ∩ b'.preparers).card ≤ faultsOf nodes →
    ¬ (b.prepareCount = quorum2f1 ∧ b'.prepareCount = quorum2f1)

theorem QuorumsIntersect.of_sets {nodes : List Nat} {q : Nat}
    (h : ∀ A B : Finset Nat, A ⊆ nodes.toFinset → B ⊆ nodes.toFinset →
      A.card = q → B.card = q → faultsOf nodes + 1 ≤ (A ∩ B).card) :
    QuorumsIntersect nodes q := by
  refine ⟨h, ?_⟩
  intro b b' hb hb' hcommon hcounts
  rw [b.prepareCount_eq_card, b'.prepareCount_eq_card] at hcounts
  have hshare := h b.preparers b'.preparers hb hb' hcounts.1 hcounts.2
  omega

/-- **Quorums intersect in an honest node exactly for `n = 3 f + 1`.** -/
theorem quorums_intersect_iff (nodes : List Nat) (lastInterpreted : Nat) (grow : Nat → Nat)
    (hnodup : nodes.Nodup) (hne : nodes ≠ []) :
    QuorumsIntersect nodes (new nodes lastInterpreted grow).params.quorum2f1 ↔
      nodes.length % 3 = 1 := by
  have hcard : nodes.toFinset.card = nodes.length := List.toFinset_card_of_nodup hnodup
  have hpos : 0 < nodes.length := List.length_pos_iff.mpr hne
  rw [new_quorum2f1]
  constructor
  · intro h
    -- take two quorums that overlap as little as they can
    have hq : 2 * faultsOf nodes + 1 ≤ nodes.toFinset.card := by
      unfold faultsOf
      omega
    obtain ⟨A, B, hA, hB, hqA, hqB, hinter⟩ := exists_inter_card_eq hq
    have hshare := h.sets A B hA hB hqA hqB
    rw [hinter] at hshare
    unfold faultsOf at hshare
    omega
  intro hmod
  apply QuorumsIntersect.of_sets
  intro A B hA hB hqA hqB
  have hle := two_mul_le_card_inter hA hB hqA hqB
  unfold faultsOf at hle ⊢
  omega

/-- Four nodes: the quorums of three intersect in two. -/
theorem quorums_intersect_four : [1, 2, 3, 4].Nodup ∧ [1, 2, 3, 4] ≠ [] ∧
      QuorumsIntersect [1, 2, 3, 4] (new [1, 2, 3, 4] 0 id).params.quorum2f1 :=
  ⟨by decide, by decide, (quorums_intersect_iff [1, 2, 3, 4] 0 id (by decide) (by decide)).mpr rfl⟩

/-- Five nodes: `f = 1` and `quorum2f1 = 3`. `{1, 2, 3}` and `{3, 4, 5}` reach the quorum and share
only node 3. -/
theorem quorums_of_five_disagree :
    ¬ QuorumsIntersect [1, 2, 3, 4, 5] (new [1, 2, 3, 4, 5] 0 id).params.quorum2f1 := by
  intro h
  have hvotes := h.votes ⟨[0], [0b001110]⟩ ⟨[0], [0b111000]⟩
  exact hvotes (by decide) (by decide) (by decide) ⟨by decide, by decide⟩

end Chainspace.Blockmania
