/-
  Chainspace.Lib.WordSet — sets of small numbers packed into 64-bit words.

  `words[v >> 6] |= 1 << (v & 63)` puts `v` into a set held as a list of words; an index past the
  last word is a run-time error (`none`). The number of one bits is the cardinality of the set, so a
  threshold on the count is a threshold on DISTINCT members.
-/
import Mathlib.Data.Finset.Card
import Mathlib.Data.Nat.Bitwise

namespace Chainspace.Lib

/-! ## §1. Counting the ones of a word. -/

/-- The number of ones among the lowest `k` bits of `w`. -/
def onesBelow : Nat → Nat → Nat
  | 0, _ => 0
  | k + 1, w => if w = 0 then 0 else w % 2 + onesBelow k (w / 2)

def onesCount64 (w : Nat) : Nat := onesBelow 64 w

/-- The positions of the ones among the lowest `k` bits of `w`. -/
def bitsBelow (k w : Nat) : Finset Nat := (Finset.range k).filter (fun i => w.testBit i = true)

theorem bitsBelow_succ (k w : Nat) : bitsBelow (k + 1) w =
    (if w % 2 = 1 then {0} else ∅) ∪ (bitsBelow k (w / 2)).map ⟨Nat.succ, Nat.succ_injective⟩ := by
  ext i
  cases i with
  | zero =>
    by_cases h : w % 2 = 1 <;>
      simp [bitsBelow, h, Nat.testBit_zero]
  | succ =>
    by_cases h : w % 2 = 1 <;>
      simp [bitsBelow, h, Nat.testBit_succ]

theorem onesBelow_eq_card : ∀ k w : Nat, onesBelow k w = (bitsBelow k w).card := by
  intro k
  induction k with
  | zero => intro w; simp [onesBelow, bitsBelow]
  | succ k ih =>
    intro w
    by_cases hw : w = 0
    · subst hw
      simp [onesBelow, bitsBelow]
    rw [onesBelow, if_neg hw, ih, bitsBelow_succ, Finset.card_union_of_disjoint]
    · rcases Nat.mod_two_eq_zero_or_one w with h | h <;> simp [h]
    rw [Finset.disjoint_left]
    intro i hi
    by_cases h : w % 2 = 1
    · simp only [h, if_true, Finset.mem_singleton] at hi
      subst hi
      simp
    · simp [h] at hi

/-! ## §2. Lists of words as sets. -/

/-- The set a list of 64-bit words denotes. -/
def members (ws : List Nat) : Finset Nat :=
  (Finset.range (64 * ws.length)).filter (fun v => (ws.getD (v / 64) 0).testBit (v % 64) = true)

theorem mem_members {ws : List Nat} {v : Nat} :
    v ∈ members ws ↔ v < 64 * ws.length ∧ (ws.getD (v / 64) 0).testBit (v % 64) = true := by
  simp [members]

/-- `words[v >> 6] & (1 << (v & 63)) != 0`, with the index check of the slice access. -/
def hasBit (ws : List Nat) (v : Nat) : Option Bool :=
  (ws[v >>> 6]?).map (fun w => w &&& (1 <<< (v &&& 63)) ≠ 0)

/-- `words[v >> 6] |= 1 << (v & 63)`, with the index check of the slice access. -/
def setBit (ws : List Nat) (v : Nat) : Option (List Nat) :=
  (ws[v >>> 6]?).map (fun w => ws.set (v >>> 6) (w ||| (1 <<< (v &&& 63))))

/-- The number of one bits of all the words. -/
def countBits (ws : List Nat) : Nat := (ws.map onesCount64).sum

theorem shiftRight_six (v : Nat) : v >>> 6 = v / 64 := by
  simp [Nat.shiftRight_eq_div_pow]

theorem and_sixty_three (v : Nat) : v &&& 63 = v % 64 := Nat.and_two_pow_sub_one_eq_mod v 6

/-- `1 << i` has exactly one bit, at `i`. -/
theorem testBit_shiftLeft_one (i j : Nat) : (1 <<< i).testBit j = decide (i = j) := by
  rw [Nat.one_shiftLeft, Nat.testBit_two_pow]

theorem and_one_shiftLeft_ne_zero (w i : Nat) : (w &&& (1 <<< i) ≠ 0) ↔ w.testBit i = true := by
  constructor
  · intro h
    by_contra hb
    refine h (Nat.eq_of_testBit_eq (fun j => ?_))
    rw [Nat.testBit_and, testBit_shiftLeft_one]
    by_cases hij : i = j
    · subst hij; simpa using hb
    · simp [hij]
  intro hb h0
  have h := congrArg (Nat.testBit · i) h0
  simp [Nat.testBit_and, hb] at h

theorem hasBit_eq_some {ws : List Nat} {v : Nat} {b : Bool} (h : hasBit ws v = some b) :
    b = decide (v ∈ members ws) := by
  simp only [hasBit, Option.map_eq_some_iff, shiftRight_six, and_sixty_three] at h
  obtain ⟨w, hw, rfl⟩ := h
  obtain ⟨hlt, hget⟩ := List.getElem?_eq_some_iff.mp hw
  have hmem : v ∈ members ws ↔ w.testBit (v % 64) = true := by
    rw [mem_members, List.getD_eq_getElem?_getD, hw]
    constructor
    · exact fun h => h.2
    · exact fun h => ⟨by omega, h⟩
  rw [decide_eq_decide, and_one_shiftLeft_ne_zero, hmem]

theorem hasBit_isSome (ws : List Nat) (v : Nat) : (hasBit ws v).isSome ↔ v / 64 < ws.length := by
  rw [hasBit, Option.isSome_map, shiftRight_six, isSome_getElem?]

theorem setBit_isSome (ws : List Nat) (v : Nat) : (setBit ws v).isSome ↔ v / 64 < ws.length := by
  rw [setBit, Option.isSome_map, shiftRight_six, isSome_getElem?]

theorem setBit_length {ws ws' : List Nat} {v : Nat} (h : setBit ws v = some ws') :
    ws'.length = ws.length := by
  simp only [setBit, Option.map_eq_some_iff] at h
  obtain ⟨w, -, rfl⟩ := h
  simp

/-- Setting a bit inserts its index. -/
theorem members_setBit {ws ws' : List Nat} {v : Nat} (h : setBit ws v = some ws') :
    members ws' = insert v (members ws) := by
  have hlen := setBit_length h
  simp only [setBit, Option.map_eq_some_iff, shiftRight_six, and_sixty_three] at h
  obtain ⟨w, hw, rfl⟩ := h
  obtain ⟨hlt, _⟩ := List.getElem?_eq_some_iff.mp hw
  ext u
  rw [Finset.mem_insert, mem_members, mem_members, hlen, List.getD_eq_getElem?_getD,
    List.getD_eq_getElem?_getD, List.getElem?_set]
  by_cases huv : v / 64 = u / 64
  · -- the word that was written: one more bit
    rw [if_pos huv, if_pos hlt, ← huv, hw]
    simp only [Option.getD_some, Nat.testBit_or, testBit_shiftLeft_one, Bool.or_eq_true,
      decide_eq_true_eq]
    constructor
    · rintro ⟨hu, hb | hb⟩
      · exact Or.inr ⟨hu, hb⟩
      · exact Or.inl (by omega)
    rintro (rfl | ⟨hu, hb⟩)
    · exact ⟨by omega, Or.inr rfl⟩
    · exact ⟨hu, Or.inl hb⟩
  -- another word: unchanged
  rw [if_neg huv]
  constructor
  · exact fun h => Or.inr h
  rintro (rfl | h)
  · exact absurd rfl huv
  · exact h

/-- The members of a longer list of words: those of the first word, and the rest shifted. -/
theorem members_cons (w : Nat) (ws : List Nat) : members (w :: ws) =
      bitsBelow 64 w ∪ (members ws).image (· + 64) := by
  ext v
  simp only [mem_members, Finset.mem_union, Finset.mem_image, bitsBelow, Finset.mem_filter,
    Finset.mem_range, List.length_cons]
  by_cases hv : v < 64
  · have hdiv : v / 64 = 0 := by omega
    have hmod : v % 64 = v := Nat.mod_eq_of_lt hv
    constructor
    · rintro ⟨-, hb⟩
      left
      rw [hdiv, hmod] at hb
      exact ⟨hv, by simpa using hb⟩
    rintro (⟨-, hb⟩ | ⟨u, -, rfl⟩)
    · exact ⟨by omega, by rw [hdiv, hmod]; simpa using hb⟩
    · omega
  obtain ⟨u, rfl⟩ : ∃ u, v = u + 64 := ⟨v - 64, by omega⟩
  constructor
  · rintro ⟨_, hb⟩
    exact Or.inr ⟨u, ⟨by omega, by simpa using hb⟩, rfl⟩
  rintro (⟨_, -⟩ | ⟨u', ⟨_, hb⟩, _⟩)
  · omega
  · obtain rfl : u' = u := by omega
    exact ⟨by omega, by simpa using hb⟩

/-- **The count of the ones is the number of distinct members.** -/
theorem countBits_eq_card (ws : List Nat) : countBits ws = (members ws).card := by
  induction ws with
  | nil => rfl
  | cons w ws ih =>
    have hcard : ((members ws).image (· + 64)).card = (members ws).card :=
      Finset.card_image_of_injective _ fun _ _ h => Nat.add_right_cancel h
    rw [members_cons, Finset.card_union_of_disjoint, hcard, ← ih]
    · simp [countBits, onesCount64, onesBelow_eq_card]
    rw [Finset.disjoint_left]
    intro v hv hv'
    simp only [bitsBelow, Finset.mem_filter, Finset.mem_range] at hv
    obtain ⟨u, -, _⟩ := Finset.mem_image.mp hv'
    omega

@[simp] theorem members_replicate_zero (k : Nat) : members (List.replicate k 0) = ∅ := by
  ext v
  rw [mem_members, List.getD_eq_getElem?_getD, List.getElem?_replicate]
  split <;> simp

end Chainspace.Lib
