/-
  Chainspace.Lib.PartialMap — finite maps that are only looked up, written and filtered.

  A map whose length and iteration order nobody reads is a partial function. `set` writes one key,
  `erase` drops one, `restrict` keeps the keys a test accepts. Every operation comes with its lookup
  equation, so a proof about a map is about one key at a time.
-/
import Mathlib.Logic.Function.Basic

namespace Chainspace.Lib

/-- A partial map from `κ` to `ν`: `none` is an absent key. -/
abbrev PMap (κ ν : Type) := κ → Option ν

namespace PMap

variable {κ ν : Type}

/-- The map with no key. -/
def empty : PMap κ ν := fun _ => none

/-- Write `v` under `k`. -/
def set [DecidableEq κ] (m : PMap κ ν) (k : κ) (v : ν) : PMap κ ν :=
  fun k' => if k' = k then some v else m k'

/-- Drop the key `k`. -/
def erase [DecidableEq κ] (m : PMap κ ν) (k : κ) : PMap κ ν :=
  fun k' => if k' = k then none else m k'

/-- Keep the keys accepted by `p`. -/
def restrict (m : PMap κ ν) (p : κ → Bool) : PMap κ ν :=
  fun k => bif p k then m k else none

@[simp] theorem empty_apply (k : κ) : (empty : PMap κ ν) k = none := rfl

section Write
variable [DecidableEq κ]

theorem set_apply (m : PMap κ ν) (k k' : κ) (v : ν) :
    m.set k v k' = if k' = k then some v else m k' := rfl

@[simp] theorem set_self (m : PMap κ ν) (k : κ) (v : ν) : m.set k v k = some v := by
  simp [set]

variable {k k' : κ} {m : PMap κ ν} {v : ν}

@[simp] theorem set_ne (m : PMap κ ν) (v : ν) (h : k' ≠ k) : m.set k v k' = m k' := by
  simp [set, h]

/-- What is found after a write is what was written, or was there before. -/
theorem of_set {w : ν} (h : m.set k v k' = some w) : k' = k ∧ v = w ∨ k' ≠ k ∧ m k' = some w := by
  by_cases hk : k' = k
  · rw [hk, set_self] at h
    exact .inl ⟨hk, Option.some.inj h⟩
  · rw [set_ne m v hk] at h
    exact .inr ⟨hk, h⟩

/-- The last write counts. -/
theorem set_set (m : PMap κ ν) (k : κ) (v v' : ν) : (m.set k v).set k v' = m.set k v' := by
  funext k'
  by_cases hk : k' = k
  · rw [hk, set_self, set_self]
  · rw [set_ne _ v' hk, set_ne _ v hk, set_ne _ v' hk]

theorem erase_apply (m : PMap κ ν) (k k' : κ) : m.erase k k' = if k' = k then none else m k' := rfl

@[simp] theorem erase_self (m : PMap κ ν) (k : κ) : m.erase k k = none := by
  simp [erase]

/-- A key that survives an erasure had the same value before it. -/
theorem of_erase (h : m.erase k k' = some v) : m k' = some v := by
  simp only [erase] at h
  split at h
  · cases h
  · exact h

end Write

theorem restrict_apply (m : PMap κ ν) (p : κ → Bool) (k : κ) :
    m.restrict p k = if p k then m k else none := by
  unfold restrict
  cases p k <;> rfl

@[simp] theorem restrict_pos (m : PMap κ ν) {p : κ → Bool} {k : κ} (h : p k = true) :
    m.restrict p k = m k := by
  simp [restrict, h]

/-- A key that survives a restriction had the same value before it. -/
theorem of_restrict {m : PMap κ ν} {p : κ → Bool} {k : κ} {v : ν}
    (h : m.restrict p k = some v) : m k = some v := by
  rw [restrict_apply] at h
  split at h
  · exact h
  · cases h

end PMap

end Chainspace.Lib
