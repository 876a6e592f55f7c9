/-
  Chainspace.Lib.Halting — does a loop come to an end?

  A loop is a function `f : α → Option α` that is run until it gives `none`; Mathlib's
  `StateTransition.eval f a` is what that leaves, and is defined exactly if the loop ends.  Here are
  the rules to show that it does, and that it does not.
-/
import Mathlib.Computability.StateTransition

namespace Chainspace.Lib

open StateTransition

section Halting
variable {α : Type*} {f : α → Option α} {a b : α}

theorem eval_dom_of_none (h : f a = none) : (eval f a).Dom :=
  Part.dom_iff_mem.mpr ⟨a, mem_eval.mpr ⟨.refl, h⟩⟩

/-- A step changes nothing. -/
theorem eval_dom_iff (h : f a = some b) : (eval f a).Dom ↔ (eval f b).Dom := by
  rw [reaches_eval (Relation.ReflTransGen.single h)]

/-- **A loop that gets lighter ends.** -/
theorem eval_dom_of_measure {P : α → Prop} (μ : α → Nat)
    (hstep : ∀ a b, P a → f a = some b → P b ∧ μ b < μ a) (ha : P a) : (eval f a).Dom := by
  induction hn : μ a using Nat.strong_induction_on generalizing a with
  | _ n ih =>
    cases hf : f a with
    | none => exact eval_dom_of_none hf
    | some b =>
      obtain ⟨hb, hless⟩ := hstep a b ha hf
      rw [eval_dom_iff hf]
      exact ih (μ b) (hn ▸ hless) hb rfl

/-- **A loop that can always go on does not end.** -/
theorem not_eval_dom {P : α → Prop} (hstep : ∀ a, P a → ∃ b, f a = some b ∧ P b) (ha : P a) :
    ¬ (eval f a).Dom := by
  intro hdom
  obtain ⟨c, hc⟩ := Part.dom_iff_mem.mp hdom
  obtain ⟨hreach, hstop⟩ := mem_eval.mp hc
  have hP : P c := by
    clear hc hstop
    induction hreach with
    | refl => exact ha
    | tail _ hnext ih =>
      obtain ⟨b, hb, hPb⟩ := hstep _ ih
      cases Option.some.inj (hb.symm.trans hnext)
      exact hPb
  obtain ⟨b, hb, _⟩ := hstep c hP
  exact absurd (hstop.symm.trans hb) (by simp)

end Halting

end Chainspace.Lib
