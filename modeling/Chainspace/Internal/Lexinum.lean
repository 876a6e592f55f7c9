/-
  Chainspace.Internal.Lexinum — numbers in database keys (`internal/lexinum/lexinum.go`).

  A number below 8258175 takes three bytes, its digits to the base 255.  A larger one takes the
  number of its digits to the base 253, the digits, and what is left over.  `uint64` arithmetic is
  written with its `% 2 ^ 64`; a slice index out of range is `none`.
-/
import Mathlib.Data.List.Basic
import Mathlib.Algebra.Group.Nat.Defs

namespace Chainspace.Lexinum

/-! ## §1. The functions. -/

def maxSmall : Nat := 8258175

/-- The loop of `pow`; `b` has at most 64 bits. -/
def powLoop : Nat → Nat → Nat → Nat → Nat
  | 0, n, _, _ => n
  | fuel + 1, n, a, b =>
    if b > 0 then
      powLoop fuel (if b % 2 ≠ 0 then n * a % 2 ^ 64 else n) (a * a % 2 ^ 64) (b / 2)
    else n

def pow (a b : Nat) : Nat := powLoop 64 1 a b

def countDigits (lead : Nat) : Nat → Nat → Nat
  | 0, n => n
  | fuel + 1, n => if lead / pow 253 n > 0 then countDigits lead fuel (n + 1) else n

def chars : Nat → Nat → List UInt8
  | 0, _ => []
  | fuel + 1, lead =>
    if lead = 0 then [] else UInt8.ofNat (lead % 253 + 2) :: chars fuel (lead / 253)

def encodeSmall (v : Nat) : List UInt8 :=
  let div := v / 255
  if div > 0 then
    if div / 255 > 0 then
      [UInt8.ofNat (div / 255 + 128), UInt8.ofNat (div % 255 + 1), UInt8.ofNat (v % 255 + 1)]
    else [0x80, UInt8.ofNat (div % 255 + 1), UInt8.ofNat (v % 255 + 1)]
  else [0x80, 0x01, UInt8.ofNat (v % 255 + 1)]

def encodeBig (v : Nat) : List UInt8 :=
  let lead := v / 255
  let rem := v % 255
  [0xff, UInt8.ofNat (countDigits lead 64 1) + 1] ++ (chars 64 lead).reverse ++
    if rem > 0 then [0x01, UInt8.ofNat rem] else []

def encode (v : Nat) : List UInt8 :=
  if v = 0 then [0x80, 0x01, 0x01]
  else if v < maxSmall then encodeSmall v
  else encodeBig (v - maxSmall)

def decodeDigits (v : Nat) : List UInt8 → Option (Nat × Nat)
  | [] => some (v, 0)
  | char :: rest =>
    if char = 0x01 then rest.head?.map fun rem => (v, rem.toNat)
    else decodeDigits ((v + (v * 252 + (char - 2).toNat)) % 2 ^ 64) rest

def decode (d : List UInt8) : Option Nat :=
  match d with
  | d0 :: d1 :: rest =>
    if d0 < 0x80 then none
    else if d0 = 0xff then
      (decodeDigits 0 rest).map fun r => (r.1 * 255 + r.2 + maxSmall) % 2 ^ 64
    else
      match rest with
      | d2 :: _ =>
        some ((((d0 - 128).toNat * 255 + (d1 - 1).toNat) * 255 + (d2 - 1).toNat) % 2 ^ 64)
      | [] => none
  | _ => none

/-- The loop of `Decode`, with what becomes of a number that is computed. -/
def decodeDigitsWith (w : Nat → Nat) (v : Nat) : List UInt8 → Option (Nat × Nat)
  | [] => some (v, 0)
  | char :: rest =>
    if char = 0x01 then rest.head?.map fun rem => (v, rem.toNat)
    else decodeDigitsWith w (w (v + (v * 252 + (char - 2).toNat))) rest

/-- `Decode` with what becomes of a number: `decodeWith id` is `Decode` on unbounded numbers. -/
def decodeWith (w : Nat → Nat) (d : List UInt8) : Option Nat :=
  match d with
  | d0 :: d1 :: rest =>
    if d0 < 0x80 then none
    else if d0 = 0xff then
      (decodeDigitsWith w 0 rest).map fun r => w (r.1 * 255 + r.2 + maxSmall)
    else
      match rest with
      | d2 :: _ => some (w (((d0 - 128).toNat * 255 + (d1 - 1).toNat) * 255 + (d2 - 1).toNat))
      | [] => none
  | _ => none

theorem decodeDigits_eq (v : Nat) (d : List UInt8) :
    decodeDigits v d = decodeDigitsWith (· % 2 ^ 64) v d := by
  induction d generalizing v with
  | nil => rfl
  | cons char rest ih =>
    unfold decodeDigits decodeDigitsWith
    rw [ih]

theorem decode_eq (d : List UInt8) : decode d = decodeWith (· % 2 ^ 64) d := by
  unfold decode decodeWith
  simp only [decodeDigits_eq]

/-! ## §2. Small numbers. -/

variable {w : Nat → Nat}

theorem toNat_ofNat_of_lt {n : Nat} (h : n < 256) : (UInt8.ofNat n).toNat = n := by
  exact Nat.mod_eq_of_lt h

theorem ofNat_add_sub_toNat {n k : Nat} (h : n + k < 256) :
    (UInt8.ofNat (n + k) - UInt8.ofNat k).toNat = n := by
  rw [UInt8.toNat_sub, toNat_ofNat_of_lt h, toNat_ofNat_of_lt (by omega)]
  omega

theorem encodeSmall_eq (v : Nat) :
    encodeSmall v = [UInt8.ofNat (v / 255 / 255 + 128), UInt8.ofNat (v / 255 % 255 + 1),
      UInt8.ofNat (v % 255 + 1)] := by
  unfold encodeSmall
  dsimp only
  split
  · split
    · rfl
    next hzero =>
      have hzero : v / 255 / 255 = 0 := by omega
      rw [hzero]
      rfl
  next hzero =>
    have hzero : v / 255 = 0 := by omega
    rw [hzero]
    rfl

theorem decode_encodeSmall (hw : ∀ x < 2 ^ 64, w x = x) {v : Nat} (h : v < maxSmall) :
    decodeWith w (encodeSmall v) = some v := by
  have h : v < 8258175 := h
  rw [encodeSmall_eq]
  have htop : v / 255 / 255 + 128 < 256 := by omega
  have hbig : ¬ UInt8.ofNat (v / 255 / 255 + 128) < 0x80 := by
    rw [UInt8.lt_iff_toNat_lt, toNat_ofNat_of_lt htop]
    show ¬ v / 255 / 255 + 128 < 128
    omega
  have hff : UInt8.ofNat (v / 255 / 255 + 128) ≠ 0xff := by
    intro heq
    have heq := congrArg UInt8.toNat heq
    rw [toNat_ofNat_of_lt htop] at heq
    have heq : v / 255 / 255 + 128 = 255 := heq
    omega
  have h0 : (UInt8.ofNat (v / 255 / 255 + 128) - 128).toNat = v / 255 / 255 :=
    ofNat_add_sub_toNat htop
  have h1 : (UInt8.ofNat (v / 255 % 255 + 1) - 1).toNat = v / 255 % 255 :=
    ofNat_add_sub_toNat (by omega)
  have h2 : (UInt8.ofNat (v % 255 + 1) - 1).toNat = v % 255 := ofNat_add_sub_toNat (by omega)
  show (if UInt8.ofNat (v / 255 / 255 + 128) < 0x80 then none
    else if UInt8.ofNat (v / 255 / 255 + 128) = 0xff then _ else _) = _
  rw [if_neg hbig, if_neg hff]
  dsimp only
  rw [h0, h1, h2, hw _ (by omega)]
  congr 1
  omega

/-! ## §3. Large numbers. -/

theorem decodeDigits_chars (hw : ∀ x < 2 ^ 64, w x = x) {fuel lead : Nat} (h : lead < 253 ^ fuel)
    (hlead : lead < 2 ^ 64) (rest : List UInt8) :
    decodeDigitsWith w 0 ((chars fuel lead).reverse ++ rest) = decodeDigitsWith w lead rest := by
  induction fuel generalizing lead rest with
  | zero =>
    have hzero : lead = 0 := by
      omega
    subst hzero
    rfl
  | succ fuel ih =>
    unfold chars
    split
    next hzero =>
      subst hzero
      rfl
    have hrest : lead / 253 < 253 ^ fuel := by
      omega
    have hdigit : lead % 253 + 2 < 256 := by omega
    rw [List.reverse_cons, List.append_assoc, ih hrest (by omega)]
    show (if UInt8.ofNat (lead % 253 + 2) = 0x01 then _ else _) = _
    have hne : UInt8.ofNat (lead % 253 + 2) ≠ 0x01 := by
      intro heq
      have heq := congrArg UInt8.toNat heq
      rw [toNat_ofNat_of_lt hdigit] at heq
      have heq : lead % 253 + 2 = 1 := heq
      omega
    have hbyte : (UInt8.ofNat (lead % 253 + 2) - 2).toNat = lead % 253 :=
      ofNat_add_sub_toNat hdigit
    rw [if_neg hne, hbyte]
    have hvalue : lead / 253 + (lead / 253 * 252 + lead % 253) = lead := by omega
    rw [hvalue, hw lead hlead]
    rfl

theorem decode_big (d1 : UInt8) (rest : List UInt8) : decodeWith w (0xff :: d1 :: rest) =
      (decodeDigitsWith w 0 rest).map fun r => w (r.1 * 255 + r.2 + maxSmall) := by
  unfold decodeWith
  dsimp only
  rw [if_neg (by decide), if_pos rfl]

theorem decode_encodeBig (hw : ∀ x < 2 ^ 64, w x = x) {v : Nat} (h : v + maxSmall < 2 ^ 64) :
    decodeWith w (encodeBig v) = some (v + maxSmall) := by
  have hlead : v / 255 < 253 ^ 64 := by
    omega
  have hread := decodeDigits_chars hw hlead (by omega)
    (if v % 255 > 0 then [0x01, UInt8.ofNat (v % 255)] else [])
  have hrest : decodeDigitsWith w (v / 255)
      (if v % 255 > 0 then [0x01, UInt8.ofNat (v % 255)] else []) =
      some (v / 255, v % 255) := by
    split
    · show some (v / 255, (UInt8.ofNat (v % 255)).toNat) = _
      rw [toNat_ofNat_of_lt (by omega)]
    next hzero =>
      have hzero : v % 255 = 0 := by omega
      rw [hzero]
      rfl
  have hbytes : encodeBig v = 0xff :: (UInt8.ofNat (countDigits (v / 255) 64 1) + 1) ::
      ((chars 64 (v / 255)).reverse ++
        if v % 255 > 0 then [0x01, UInt8.ofNat (v % 255)] else []) := rfl
  rw [hbytes, decode_big, hread, hrest]
  show some (w (v / 255 * 255 + v % 255 + maxSmall)) = _
  rw [Nat.div_add_mod', hw _ h]

/-! ## §4. The round trip. -/

/-- **What is encoded is decoded**, whatever is done with numbers that do not fit. -/
theorem decodeWith_encode (hw : ∀ x < 2 ^ 64, w x = x) {v : Nat} (h : v < 2 ^ 64) :
    decodeWith w (encode v) = some v := by
  unfold encode
  split
  next hzero =>
    subst hzero
    exact decode_encodeSmall (v := 0) hw (by decide)
  split
  next hsmall => exact decode_encodeSmall hw hsmall
  next hbig =>
    have hle : maxSmall ≤ v := Nat.le_of_not_lt hbig
    have hadd : v - maxSmall + maxSmall = v := Nat.sub_add_cancel hle
    rw [decode_encodeBig hw (hadd.symm ▸ h), hadd]

theorem decode_encode {v : Nat} (h : v < 2 ^ 64) : decode (encode v) = some v := by
  rw [decode_eq]
  exact decodeWith_encode (fun _ => Nat.mod_eq_of_lt) h

theorem encode_injective {u v : Nat} (hu : u < 2 ^ 64) (hv : v < 2 ^ 64)
    (h : encode u = encode v) : u = v := by
  have hdecode := decode_encode hu
  rw [h, decode_encode hv] at hdecode
  injection hdecode with hdecode
  exact hdecode.symm

end Chainspace.Lexinum
