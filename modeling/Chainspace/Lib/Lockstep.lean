/-
  Chainspace.Lib.Lockstep — two computations side by side.

  `Both Q x y` relates two computations that can exit with an error: they end in the same error, or
  in results that `Q` relates.  The rules follow the structure of the computations.
-/
import Chainspace.Lib.Loop

namespace Chainspace.Lib

variable {ε α β γ δ ι : Type}

/-- The computations end in the same error, or in related results. -/
def Both (Q : α → β → Prop) : Except ε α → Except ε β → Prop
  | .ok a, .ok b => Q a b
  | .error e, .error e' => e = e'
  | _, _ => False

namespace Both

variable {Q : α → β → Prop} {R : γ → δ → Prop} {x : Except ε α} {y : Except ε β}

/-- A computation beside itself. -/
theorem same (x : Except ε α) : Both (fun a b => a = b) x x := by
  cases x with
  | error | ok => exact rfl

/-- The rule for two sequences of two computations. -/
theorem bind {f : α → Except ε γ} {f' : β → Except ε δ} (h : Both Q x y)
    (hf : ∀ a b, x = .ok a → y = .ok b → Q a b → Both R (f a) (f' b)) :
    Both R (x >>= f) (y >>= f') := by
  cases x with
  | error => cases y with
    | error => exact h
    | ok => exact absurd h id
  | ok a => cases y with
    | error => exact absurd h id
    | ok b => exact hf a b rfl rfl h

end Both

section Loop
variable {Q : α → β → Prop} {f : α → ι → Except ε α} {f' : β → ι → Except ε β}

/-- Two loops over one list. -/
theorem Both.foldlM {l : List ι} {a : α} {b : β} (h : Q a b)
    (hstep : ∀ i ∈ l, ∀ x y, Q x y → Both Q (f x i) (f' y i)) :
    Both Q (l.foldlM f a) (l.foldlM f' b) := by
  induction l generalizing a b with
  | nil => exact h
  | cons i l ih =>
    refine Both.bind (hstep i List.mem_cons_self a b h) ?_
    intro x y _ _ hxy
    exact ih hxy (fun j hj => hstep j (List.mem_cons_of_mem i hj))

end Loop

end Chainspace.Lib
