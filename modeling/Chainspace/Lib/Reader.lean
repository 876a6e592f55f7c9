/-
  Chainspace.Lib.Reader — reading a value from the front of a byte string.

  A reader consumes bytes and fails when they run out. `Reads p bytes a` says that `p` reads `a`
  from `bytes`, whatever follows them; there are rules for a sequence (`Reads.bind`), a number of a
  fixed width (`reads_uint`), and bytes (`reads_bytes`) or a list (`reads_many`) after the length.
-/
import Chainspace.Lib.Bytes

namespace Chainspace.Lib

/-- A reader of values of type `α`. -/
abbrev Reader (α : Type) := StateT (List UInt8) Option α

namespace Reader

variable {α β : Type}

/-- The next `n` bytes. -/
def bytes (n : Nat) : Reader (List UInt8) := fun val =>
  if val.length < n then none else some (val.take n, val.drop n)

/-- A little-endian number of `w` bytes. -/
def uint (w : Nat) : Reader Nat := do
  let bs ← bytes w
  pure (LittleEndian.get bs)

/-- `n` values, one after the other. -/
def many (p : Reader α) : Nat → Reader (List α)
  | 0 => pure []
  | n + 1 => do
      let a ← p
      let as ← many p n
      pure (a :: as)

/-- `p` reads `a` from these bytes, and leaves what follows them. -/
def Reads (p : Reader α) (bs : List UInt8) (a : α) : Prop :=
  ∀ rest, p (bs ++ rest) = some (a, rest)

theorem reads_pure (a : α) : Reads (pure a) [] a := fun _ => rfl

theorem Reads.bind {p : Reader α} {f : α → Reader β} {xs ys : List UInt8} {a : α} {b : β}
    (hp : Reads p xs a) (hf : Reads (f a) ys b) : Reads (p >>= f) (xs ++ ys) b := by
  intro rest
  have hrun : (p >>= f) (xs ++ ys ++ rest) = (p (xs ++ (ys ++ rest))).bind fun r => f r.1 r.2 := by
    rw [List.append_assoc]
    rfl
  rw [hrun, hp (ys ++ rest)]
  exact hf rest

/-- Nothing is read after `p`. -/
theorem Reads.map {p : Reader α} {xs : List UInt8} {a : α} (hp : Reads p xs a) (f : α → β) :
    Reads (p >>= fun a => pure (f a)) xs (f a) := by
  have hread : Reads (p >>= fun a => pure (f a)) (xs ++ []) (f a) := hp.bind (reads_pure (f a))
  rw [List.append_nil] at hread
  exact hread

theorem reads_bytes (bs : List UInt8) : Reads (bytes bs.length) bs bs := by
  intro rest
  unfold bytes
  rw [if_neg (by simp), List.take_left, List.drop_left]

theorem reads_uint {w n : Nat} (h : n < 256 ^ w) : Reads (uint w) (LittleEndian.put w n) n := by
  have hread := (reads_bytes (LittleEndian.put w n)).map LittleEndian.get
  rw [LittleEndian.length_put, LittleEndian.get_put_of_lt h] at hread
  exact hread

/-- Values that are read one by one are read as a list. -/
theorem reads_many {p : Reader α} {enc : α → List UInt8} {as : List α}
    (h : ∀ a ∈ as, Reads p (enc a) a) : Reads (many p as.length) (as.flatMap enc) as := by
  induction as with
  | nil => exact reads_pure []
  | cons a as ih =>
    have hrest := ih (fun b hb => h b (List.mem_cons_of_mem a hb))
    exact (h a List.mem_cons_self).bind (hrest.map (a :: ·))

end Reader

end Chainspace.Lib
