/-
  Chainspace.Lib.Forest — the nodes of a forest, at any depth.

  A tree type is given by the function that lists the children of a node.  `Within children d ts`
  says that `d` is a root of the forest `ts` or lies below one.
-/
import Mathlib.Data.List.Basic

namespace Chainspace.Lib.Forest

variable {α β : Type}

/-- A node of a forest: a root, or a node of the forest of a root's children. -/
inductive Within (children : α → List α) : α → List α → Prop
  | here {t : α} {ts : List α} (h : t ∈ ts) : Within children t ts
  | under {t d : α} {ts : List α} (h : t ∈ ts) (hd : Within children d (children t)) :
      Within children d ts

variable {children : α → List α} {t d : α} {ts : List α}

theorem not_within_nil : ¬ Within children d [] := by
  intro h
  cases h with
  | here h | under h => cases h

/-- A node of a forest is the first root, below the first root, or in the rest. -/
theorem within_cons : Within children d (t :: ts) ↔
      d = t ∨ Within children d (children t) ∨ Within children d ts := by
  constructor
  · intro h
    cases h with
    | here h =>
      rcases List.mem_cons.mp h with heq | h
      · exact .inl heq
      · exact .inr (.inr (.here h))
    | under h hd =>
      rcases List.mem_cons.mp h with heq | h
      · exact .inr (.inl (heq ▸ hd))
      · exact .inr (.inr (.under h hd))
  intro h
  rcases h with heq | hd | h
  · exact .here (heq ▸ List.mem_cons_self)
  · exact .under List.mem_cons_self hd
  cases h with
  | here h => exact .here (List.mem_cons_of_mem t h)
  | under h hd => exact .under (List.mem_cons_of_mem t h) hd

/-- A translation of trees that keeps their shape translates the nodes. -/
theorem within_map {children' : β → List β} {f : α → β}
    (hf : ∀ t, children' (f t) = (children t).map f) {e : β} :
    Within children' e (ts.map f) ↔ ∃ d, Within children d ts ∧ f d = e := by
  constructor
  · intro h
    generalize hus : ts.map f = us at h
    induction h generalizing ts with
    | here h =>
      rw [← hus] at h
      obtain ⟨t, ht, heq⟩ := List.mem_map.mp h
      exact ⟨t, .here ht, heq⟩
    | under h _ ih =>
      rw [← hus] at h
      obtain ⟨t, ht, heq⟩ := List.mem_map.mp h
      obtain ⟨d, hd, hfd⟩ := ih (by rw [← heq, hf])
      exact ⟨d, .under ht hd, hfd⟩
  rintro ⟨d, hd, heq⟩
  subst heq
  induction hd with
  | here h => exact .here (List.mem_map_of_mem h)
  | under h _ ih =>
    refine .under (List.mem_map_of_mem h) ?_
    rw [hf]
    exact ih

end Chainspace.Lib.Forest
