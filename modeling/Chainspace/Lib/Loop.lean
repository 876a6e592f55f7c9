/-
  Chainspace.Lib.Loop — invariant rules for loops over a list.

  A Go loop `for _, x := range xs` becomes a fold, plain or with an exit. What one iteration
  preserves holds after the loop; an iteration may use that its element is in the list. `Outcome P E
  x` is the triple of a computation that can exit: its result satisfies `P`, its error `E`.
-/
import Mathlib.Data.List.Basic
import Mathlib.Logic.Function.Iterate

namespace Chainspace.Lib

open List

variable {ε α β : Type} {b r : β} {l : List α} {f : β → α → β}

/-- A sequence of two computations ends well exactly when both do. -/
theorem bind_eq_ok {x : Except ε α} {f : α → Except ε β} :
    (x >>= f) = .ok b ↔ ∃ a, x = .ok a ∧ f a = .ok b := by
  cases x with
  | error | ok => simp [bind, Except.bind]

/-- The invariant rule for a loop that can exit with an error. -/
theorem foldlM_inv (P : β → Prop) {f : β → α → Except ε β}
    (hb : P b) (hstep : ∀ a ∈ l, ∀ x y, P x → f x a = .ok y → P y)
    (hr : l.foldlM f b = .ok r) : P r := by
  induction l generalizing b with
  | nil =>
    cases hr
    exact hb
  | cons a l ih =>
    obtain ⟨x, hx, hr⟩ := bind_eq_ok.mp hr
    refine ih (hstep a mem_cons_self b x hb hx) ?_ hr
    intro a' ha'
    exact hstep a' (mem_cons_of_mem a ha')

/-- The invariant rule for a loop that always runs to its end. -/
theorem foldl_inv (P : β → Prop)
    (hb : P b) (hstep : ∀ a ∈ l, ∀ x, P x → P (f x a)) : P (l.foldl f b) := by
  induction l generalizing b with
  | nil => exact hb
  | cons a l ih =>
    refine ih (hstep a mem_cons_self b hb) ?_
    intro a' ha'
    exact hstep a' (mem_cons_of_mem a ha')

/-- The same rule, for an iteration that uses what came before its element. -/
theorem foldl_inv_split (P : β → Prop) (hb : P b)
    (hstep : ∀ pre a post, l = pre ++ a :: post → P (pre.foldl f b) → P (f (pre.foldl f b) a)) :
    P (l.foldl f b) := by
  have hgo : ∀ post pre, l = pre ++ post → P (pre.foldl f b) → P (l.foldl f b) := by
    intro post
    induction post with
    | nil =>
      intro pre hl hp
      rw [hl, append_nil]
      exact hp
    | cons a post ih =>
      intro pre hl hp
      refine ih (pre ++ [a]) (by simp [hl]) ?_
      rw [foldl_append]
      exact hstep pre a post hl hp
  exact hgo l [] rfl hb

/-- The rule for a loop that can exit, with an invariant about the elements so far. -/
theorem foldlM_inv_split (P : List α → β → Prop) {f : β → α → Except ε β} (hb : P [] b)
    (hstep : ∀ pre a post, l = pre ++ a :: post → ∀ x y, P pre x → f x a = .ok y → P (pre ++ [a]) y)
    (hr : l.foldlM f b = .ok r) : P l r := by
  have hgo : ∀ post pre x, l = pre ++ post → P pre x → post.foldlM f x = .ok r → P l r := by
    intro post
    induction post with
    | nil =>
      intro pre x hl hp hr
      injection hr with hr
      rw [hl, append_nil, ← hr]
      exact hp
    | cons a post ih =>
      intro pre x hl hp hr
      obtain ⟨y, hy, hr⟩ := bind_eq_ok.mp hr
      exact ih (pre ++ [a]) y (by simp [hl]) (hstep pre a post hl x y hp hy) hr
  exact hgo l [] b rfl hb hr

/-- A loop whose body makes the change `g` where `P` allows it, and exits otherwise, ends well
exactly when every element is allowed at its turn. -/
theorem foldlM_eq_ok {f : β → α → Except ε β} {g : β → α → β} {P : β → α → Prop}
    (hf : ∀ b a r, f b a = .ok r ↔ P b a ∧ r = g b a) :
    l.foldlM f b = .ok r ↔
      (∀ pre a post, l = pre ++ a :: post → P (pre.foldl g b) a) ∧ r = l.foldl g b := by
  induction l generalizing b with
  | nil =>
    constructor
    · intro h
      injection h with h
      exact ⟨fun pre a post heq => absurd heq (by simp), h.symm⟩
    intro h
    rw [h.2]
    rfl
  | cons x l ih =>
    rw [foldlM_cons, bind_eq_ok]
    constructor
    · intro h
      obtain ⟨y, hy, h⟩ := h
      obtain ⟨hallowed, hy⟩ := (hf b x y).mp hy
      obtain ⟨hturns, hr⟩ := ih.mp h
      subst hy
      refine ⟨?_, hr⟩
      intro pre a post heq
      cases pre with
      | nil =>
        injection heq with ha _
        exact ha ▸ hallowed
      | cons z pre =>
        injection heq with hz heq
        exact hz ▸ hturns pre a post heq
    · intro h
      refine ⟨g b x, (hf b x _).mpr ⟨h.1 [] x l rfl, rfl⟩, ih.mpr ⟨?_, h.2⟩⟩
      intro pre a post heq
      exact h.1 (x :: pre) a post (by rw [heq]; rfl)

/-- The states a loop goes through, from first to last. -/
def loopStates (f : β → α → β) (b : β) : List α → List β
  | [] => [b]
  | a :: l => b :: loopStates f (f b a) l

/-- A measure that no iteration lowers rises along the loop. -/
theorem loopStates_rising (μ : β → Nat) (hstep : ∀ x ∈ loopStates f b l, ∀ a ∈ l, μ x ≤ μ (f x a)) :
    (loopStates f b l).Pairwise (fun x y => μ x ≤ μ y) ∧
      ∀ x ∈ loopStates f b l, μ b ≤ μ x ∧ μ x ≤ μ (l.foldl f b) := by
  induction l generalizing b with
  | nil =>
    refine ⟨pairwise_singleton _ b, ?_⟩
    intro x hx
    rw [mem_singleton.mp hx]
    exact ⟨Nat.le_refl _, Nat.le_refl _⟩
  | cons a l ih =>
    have hfirst : μ b ≤ μ (f b a) := hstep b mem_cons_self a mem_cons_self
    obtain ⟨hpair, hrest⟩ := ih (fun x hx a' ha' =>
      hstep x (mem_cons_of_mem b hx) a' (mem_cons_of_mem a ha'))
    have hlast : μ (f b a) ≤ μ (l.foldl f (f b a)) := by
      cases l with
      | nil => exact Nat.le_refl _
      | cons => exact (hrest (f b a) mem_cons_self).2
    refine ⟨pairwise_cons.mpr ⟨?_, hpair⟩, ?_⟩
    · intro x hx
      exact Nat.le_trans hfirst (hrest x hx).1
    intro x hx
    rcases mem_cons.mp hx with hx | hx
    · rw [hx]
      exact ⟨Nat.le_refl _, Nat.le_trans hfirst hlast⟩
    · exact ⟨Nat.le_trans hfirst (hrest x hx).1, (hrest x hx).2⟩

/-- What a loop of lookups collects. -/
theorem mem_of_mapM {f : α → Option β} {r : List β} (h : l.mapM f = some r)
    (hb : b ∈ r) : ∃ a ∈ l, f a = some b := by
  induction l generalizing r with
  | nil =>
    cases h
    cases hb
  | cons a l ih =>
    rw [mapM_cons] at h
    obtain ⟨b', hb', h⟩ := Option.bind_eq_some_iff.mp h
    obtain ⟨rest, hrest, h⟩ := Option.bind_eq_some_iff.mp h
    cases h
    rcases mem_cons.mp hb with hb | hb
    · exact ⟨a, mem_cons_self, hb ▸ hb'⟩
    · obtain ⟨x, hx, hfx⟩ := ih hrest hb
      exact ⟨x, mem_cons_of_mem a hx, hfx⟩

/-- The invariant rule for a loop of steps that may be refused. -/
theorem foldlM_some_inv (P : β → Prop) {f : β → α → Option β}
    (hb : P b) (hstep : ∀ a ∈ l, ∀ x y, P x → f x a = some y → P y)
    (hr : l.foldlM f b = some r) : P r := by
  induction l generalizing b with
  | nil =>
    cases hr
    exact hb
  | cons a l ih =>
    obtain ⟨y, hy, hr⟩ := Option.bind_eq_some_iff.mp hr
    exact ih (hstep a mem_cons_self b y hb hy) (fun a' ha' => hstep a' (mem_cons_of_mem a ha')) hr

/-! ## Evaluation. -/

/-- The computation ends well, in a result that passes the test. -/
def endsIn (x : Except ε β) (f : β → Bool) : Bool :=
  match x with
  | .ok b => f b
  | .error _ => false

section Evaluation
variable {P Q : β → Prop} [DecidablePred P]

theorem exists_of_endsIn {x : Except ε β} (h : endsIn x (fun b => decide (P b)) = true)
    (hQ : ∀ b, x = .ok b → P b → Q b) : ∃ b, x = .ok b ∧ Q b := by
  cases x with
  | error => exact absurd h (by simp [endsIn])
  | ok b => exact ⟨b, rfl, hQ b rfl (of_decide_eq_true h)⟩

theorem exists_of_any {x : Option β} (h : x.any (fun b => decide (P b)) = true)
    (hQ : ∀ b, x = some b → P b → Q b) : ∃ b, x = some b ∧ Q b := by
  cases x with
  | none => cases h
  | some b => exact ⟨b, rfl, hQ b rfl (of_decide_eq_true h)⟩

end Evaluation

/-! ## Results and errors together. -/

/-- The result of a computation satisfies `P`, its error satisfies `E`. -/
def Outcome (P : β → Prop) (E : ε → Prop) : Except ε β → Prop
  | .ok b => P b
  | .error e => E e

section Outcome
variable {P : β → Prop} {Q : α → Prop} {E : ε → Prop} {x : Except ε β}

theorem Outcome.of_ok (h : Outcome P E x) {b : β} (hx : x = .ok b) : P b := by
  rw [hx] at h
  exact h

theorem Outcome.of_error (h : Outcome P E x) {e : ε} (hx : x = .error e) : E e := by
  rw [hx] at h
  exact h

theorem Outcome.intro (hok : ∀ b, x = .ok b → P b)
    (herror : ∀ e, x = .error e → E e) : Outcome P E x := by
  cases x with
  | ok b => exact hok b rfl
  | error e => exact herror e rfl

theorem Outcome.imp_error {E' : ε → Prop} (h : Outcome P E x) (hE : ∀ e, E e → E' e) :
    Outcome P E' x := by
  cases x with
  | ok => exact h
  | error e => exact hE e h

/-- The rule for a sequence of two computations. -/
theorem Outcome.bind {x : Except ε α} {f : α → Except ε β} (hx : Outcome Q E x)
    (hf : ∀ a, x = .ok a → Q a → Outcome P E (f a)) : Outcome P E (x >>= f) := by
  cases x with
  | ok a => exact hf a rfl hx
  | error => exact hx

/-- The invariant rule for a loop that can exit, with what its error satisfies. -/
theorem Outcome.foldlM {f : β → α → Except ε β} (hb : P b)
    (hstep : ∀ a ∈ l, ∀ x, P x → Outcome P E (f x a)) : Outcome P E (l.foldlM f b) := by
  induction l generalizing b with
  | nil => exact hb
  | cons a l ih =>
    apply Outcome.bind (hstep a mem_cons_self b hb)
    intro x _ hx
    exact ih hx (fun a' ha' => hstep a' (mem_cons_of_mem a ha'))

/-- The rule for a loop that can exit: `S` speaks about the elements so far, and `R` fails for one
that ends the loop. -/
theorem foldlM_outcome (S : List α → β → Prop) (R : List α → Prop)
    (hmore : ∀ pre post, R (pre ++ post) → R pre) {f : β → α → Except ε β}
    (hstep : ∀ pre a b, S pre b → Outcome (S (pre ++ [a])) (fun _ => ¬ R (pre ++ [a])) (f b a))
    (l pre : List α) {b : β} (hb : S pre b) :
    Outcome (S (pre ++ l)) (fun _ => ¬ R (pre ++ l)) (l.foldlM f b) := by
  induction l generalizing pre b with
  | nil =>
    rw [append_nil]
    exact hb
  | cons a l ih =>
    rw [append_cons]
    refine Outcome.bind ((hstep pre a b hb).imp_error ?_) ?_
    · exact fun e hnot hR => hnot (hmore _ _ hR)
    · intro x _ hx
      exact ih (pre ++ [a]) hx

end Outcome

/-- An iteration comes to rest in one place. -/
theorem iterate_fixed_unique {f : α → α} {x y z : α} {i j : Nat} (hy : f^[i] x = y)
    (hz : f^[j] x = z) (hfy : f y = y) (hfz : f z = z) : y = z := by
  have hleft : f^[j + i] x = y := by
    rw [Function.iterate_add_apply, hy, Function.iterate_fixed hfy]
  have hright : f^[j + i] x = z := by
    rw [Nat.add_comm, Function.iterate_add_apply, hz, Function.iterate_fixed hfz]
  exact hleft.symm.trans hright

end Chainspace.Lib
