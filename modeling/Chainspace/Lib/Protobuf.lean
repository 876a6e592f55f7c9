/-
  Chainspace.Lib.Protobuf — the fields of a protobuf message.

  A field is a key, which has its number and its wire type, and a value: a varint, or a length and
  as many bytes.  A field with the default value is left out.
-/
import Mathlib.Data.List.Basic
import Mathlib.Algebra.GroupWithZero.Nat

namespace Chainspace.Lib.Protobuf

/-- A number in groups of seven bits, the lowest first. -/
def varint (n : Nat) : List UInt8 :=
  if n < 128 then [.ofNat n] else .ofNat (n % 128 + 128) :: varint (n / 128)
termination_by n
decreasing_by omega

theorem length_varint_le {k n : Nat} (h : n < 128 ^ (k + 1)) : (varint n).length ≤ k + 1 := by
  induction k generalizing n with
  | zero =>
    rw [varint, if_pos (by omega)]
    exact Nat.le_refl 1
  | succ k ih =>
    rw [varint]
    split
    · simp
    have hnext : n / 128 < 128 ^ (k + 1) := by
      omega
    have hrest := ih hnext
    rw [List.length_cons]
    omega

/-- A `uint64` has at most ten groups. -/
theorem length_varint_le_ten {n : Nat} (h : n < 2 ^ 64) : (varint n).length ≤ 10 :=
  length_varint_le (k := 9) (Nat.lt_trans h (by decide))

/-- An embedded message. -/
def messageField (field : Nat) (bs : List UInt8) : List UInt8 :=
  varint (field * 8 + 2) ++ varint bs.length ++ bs

/-- A field of type `bytes` or `string`. -/
def bytesField (field : Nat) (bs : List UInt8) : List UInt8 :=
  if bs = [] then [] else messageField field bs

/-- A field of an unsigned number. -/
def uintField (field n : Nat) : List UInt8 :=
  if n = 0 then [] else varint (field * 8) ++ varint n

section Length
variable {field : Nat} {bs : List UInt8}

theorem length_messageField_le (hfield : field < 15) (h : bs.length < 2 ^ 64) :
    (messageField field bs).length ≤ 11 + bs.length := by
  have hkey : (varint (field * 8 + 2)).length ≤ 1 := length_varint_le (k := 0) (by omega)
  have hlen := length_varint_le_ten h
  unfold messageField
  rw [List.length_append, List.length_append]
  omega

theorem length_bytesField_le (hfield : field < 15) (h : bs.length < 2 ^ 64) :
    (bytesField field bs).length ≤ 11 + bs.length := by
  unfold bytesField
  split
  · exact Nat.zero_le _
  · exact length_messageField_le hfield h

theorem length_uintField_le {n : Nat} (hfield : field < 15) (h : n < 2 ^ 64) :
    (uintField field n).length ≤ 11 := by
  have hkey : (varint (field * 8)).length ≤ 1 := length_varint_le (k := 0) (by omega)
  have hlen := length_varint_le_ten h
  unfold uintField
  split
  · exact Nat.zero_le _
  · rw [List.length_append]
    omega

end Length

end Chainspace.Lib.Protobuf
