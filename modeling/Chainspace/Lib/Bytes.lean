/-
  Chainspace.Lib.Bytes — numbers of a fixed width in byte strings, and writes into a buffer.

  `LittleEndian.put w n` is a number in `w` bytes, least significant first, and
  `LittleEndian.get` reads it back.  `blit` overwrites a part of a buffer, as a read into a slice
  of it does.
-/
import Mathlib.Data.List.Basic
import Mathlib.Algebra.Group.Nat.Defs

namespace Chainspace.Lib

open List

/-! ## §1. Numbers. -/

namespace LittleEndian

/-- The `w` bytes of a number; what does not fit is dropped. -/
def put : Nat → Nat → List UInt8
  | 0, _ => []
  | w + 1, n => UInt8.ofNat n :: put w (n / 256)

/-- The number that bytes stand for. -/
def get : List UInt8 → Nat
  | [] => 0
  | b :: bs => b.toNat + 256 * get bs

@[simp] theorem length_put (w n : Nat) : (put w n).length = w := by
  induction w generalizing n with
  | zero => rfl
  | succ w ih =>
    show (put w (n / 256)).length + 1 = w + 1
    rw [ih]

/-- A number is read back up to the width it was written with. -/
theorem get_put (w n : Nat) : get (put w n) = n % 256 ^ w := by
  induction w generalizing n with
  | zero =>
    show 0 = n % 1
    omega
  | succ w ih =>
    show (UInt8.ofNat n).toNat + 256 * get (put w (n / 256)) = n % 256 ^ (w + 1)
    have hbyte : (UInt8.ofNat n).toNat = n % 256 := UInt8.toNat_ofNat'
    rw [ih, hbyte, Nat.pow_succ', Nat.mod_mul]

theorem get_put_of_lt {w n : Nat} (h : n < 256 ^ w) : get (put w n) = n := by
  rw [get_put, Nat.mod_eq_of_lt h]

theorem get_lt (bs : List UInt8) : get bs < 256 ^ bs.length := by
  induction bs with
  | nil => exact Nat.one_pos
  | cons b bs =>
    show b.toNat + 256 * get bs < 256 ^ (bs.length + 1)
    have hb : b.toNat < 256 := b.toNat_lt
    omega

/-- Bytes are those of the number they stand for. -/
theorem put_get (bs : List UInt8) : put bs.length (get bs) = bs := by
  induction bs with
  | nil => rfl
  | cons b bs ih =>
    show UInt8.ofNat (b.toNat + 256 * get bs) :: put bs.length ((b.toNat + 256 * get bs) / 256) =
      b :: bs
    have hb : b.toNat < 256 := b.toNat_lt
    have hrest : (b.toNat + 256 * get bs) / 256 = get bs := by omega
    have hbyte : UInt8.ofNat (b.toNat + 256 * get bs) = b := by
      apply UInt8.toNat_inj.mp
      rw [UInt8.toNat_ofNat']
      omega
    rw [hrest, hbyte, ih]

end LittleEndian

/-! ## §2. Buffers. -/

section Buffer
variable {α : Type}

/-- The buffer with `xs` in it from position `off` on. -/
def blit (buf : List α) (off : Nat) (xs : List α) : List α :=
  buf.take off ++ xs ++ buf.drop (off + xs.length)

variable {buf xs : List α} {off : Nat}

theorem length_blit (h : off + xs.length ≤ buf.length) : (blit buf off xs).length = buf.length := by
  unfold blit
  simp only [length_append, length_take, length_drop]
  omega

/-- What stood before the write is followed by what was written. -/
theorem take_blit (h : off + xs.length ≤ buf.length) :
    (blit buf off xs).take (off + xs.length) = buf.take off ++ xs := by
  have hlen : (buf.take off ++ xs).length = off + xs.length := by
    rw [length_append, length_take]
    omega
  unfold blit
  rw [← hlen, take_left]

/-- A write before a position leaves what follows. -/
theorem drop_blit {k : Nat} (h : off + xs.length ≤ k)
    (hbuf : off ≤ buf.length) : (blit buf off xs).drop k = buf.drop k := by
  have hlen : (buf.take off ++ xs).length = off + xs.length := by
    rw [length_append, length_take]
    omega
  obtain ⟨j, hj⟩ := Nat.exists_eq_add_of_le h
  unfold blit
  rw [hj, ← hlen, drop_length_add_append, drop_drop]

/-- Two writes side by side are one write. -/
theorem blit_blit (h : off + xs.length ≤ buf.length)
    (ys : List α) : blit (blit buf off xs) (off + xs.length) ys = blit buf off (xs ++ ys) := by
  show (blit buf off xs).take (off + xs.length) ++ ys ++
    (blit buf off xs).drop (off + xs.length + ys.length) = _
  rw [take_blit h, drop_blit (Nat.le_add_right _ _) (by omega), Nat.add_assoc]
  unfold blit
  rw [length_append, append_assoc (buf.take off) xs ys]

end Buffer

end Chainspace.Lib
