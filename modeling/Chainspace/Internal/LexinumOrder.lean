/-
  Chainspace.Internal.LexinumOrder — numbers in keys sort as numbers
  (`internal/lexinum/lexinum.go`).

  The database iterates over keys in byte order, and separates the numbers in a key by a zero byte.
  No byte of an encoding is zero (`zero_not_mem_encode`), and encodings compare as the numbers do
  (`encode_lt_encode_iff`): large numbers by the number of their digits, then by the digits.
-/
import Chainspace.Internal.Lexinum
import Chainspace.Lib.SortedTable
import Mathlib.Data.Nat.Digits.Lemmas

namespace Chainspace.Lexinum

open Chainspace.Lib List

/-! ## §1. Bytes. -/

variable {n lead u v : Nat}

theorem ofNat_lt_ofNat {m : Nat} (hn : n < 256) (h : m < n) : UInt8.ofNat m < UInt8.ofNat n := by
  rw [UInt8.lt_iff_toNat_lt, toNat_ofNat_of_lt hn, toNat_ofNat_of_lt (by omega)]
  exact h

theorem ofNat_ne_zero (hn : n < 256) (h : 0 < n) : UInt8.ofNat n ≠ 0 := by
  intro heq
  have heq := congrArg UInt8.toNat heq
  rw [toNat_ofNat_of_lt hn] at heq
  have heq : n = 0 := heq
  omega

/-! ## §2. The digits of a large number. -/

theorem chars_eq_digits {fuel : Nat} (h : lead < 253 ^ fuel) :
    chars fuel lead = (Nat.digits 253 lead).map (fun d => UInt8.ofNat (d + 2)) := by
  induction fuel generalizing lead with
  | zero =>
    have hzero : lead = 0 := by
      omega
    subst hzero
    rfl
  | succ fuel ih =>
    unfold chars
    split
    next hzero =>
      subst hzero
      rfl
    next hpos =>
      have hrest : lead / 253 < 253 ^ fuel := by
        omega
      rw [Nat.digits_def' (by decide) (Nat.pos_of_ne_zero hpos), map_cons, ih hrest]

theorem pow_eq (h : n ≤ 8) : pow 253 n = 253 ^ n := by
  have hall : ∀ n < 9, pow 253 n = 253 ^ n := by decide
  exact hall n (by omega)

theorem countDigits_eq {fuel : Nat} (hlead : lead < 253 ^ 8) (hfuel : 8 < n + fuel)
    (hn : n ≤ max 1 (Nat.digits 253 lead).length) :
    countDigits lead fuel n = max n (Nat.digits 253 lead).length := by
  have hlen : (Nat.digits 253 lead).length ≤ 8 :=
    (Nat.digits_length_le_iff (by decide) lead).mpr hlead
  induction fuel generalizing n with
  | zero => omega
  | succ fuel ih =>
    have hpow : pow 253 n = 253 ^ n := pow_eq (by omega)
    have hmore : lead / 253 ^ n > 0 ↔ n < (Nat.digits 253 lead).length := by
      rw [Nat.lt_digits_length_iff (by decide), gt_iff_lt,
        Nat.div_pos_iff, and_iff_right (Nat.pow_pos (by decide))]
    unfold countDigits
    rw [hpow]
    split
    next =>
      rw [ih (by omega) (by omega)]
      omega
    next =>
      omega

/-- Numbers with as many digits compare by their digits, the highest first. -/
theorem digits_reverse_lt (h : u < v)
    (hlen : (Nat.digits 253 u).length = (Nat.digits 253 v).length) :
    ((Nat.digits 253 u).map (fun d => UInt8.ofNat (d + 2))).reverse <
      ((Nat.digits 253 v).map (fun d => UInt8.ofNat (d + 2))).reverse := by
  induction v using Nat.strong_induction_on generalizing u with
  | _ v ih =>
    have hv : 0 < v := by omega
    have hu : 0 < u := by
      rw [Nat.pos_iff_ne_zero]
      intro hzero
      rw [hzero, Nat.digits_def' (by decide) hv] at hlen
      cases hlen
    rw [Nat.digits_def' (by decide) hu, Nat.digits_def' (by decide) hv] at hlen ⊢
    have hlen : (Nat.digits 253 (u / 253)).length = (Nat.digits 253 (v / 253)).length := by
      simpa using hlen
    rw [map_cons, map_cons, reverse_cons, reverse_cons]
    by_cases hhigh : u / 253 < v / 253
    · apply append_lt_append_of_lt (by simpa using hlen)
      exact ih (v / 253) (by omega) hhigh hlen
    have hsame : u / 253 = v / 253 := by omega
    rw [hsame]
    apply append_left_lt
    rw [cons_lt_cons_iff]
    exact .inl (ofNat_lt_ofNat (by omega) (by omega))

/-! ## §3. Large numbers. -/

def remBytes (rem : Nat) : List UInt8 := if rem > 0 then [0x01, UInt8.ofNat rem] else []

def leadBytes (lead : Nat) : List UInt8 :=
  ((Nat.digits 253 lead).map (fun d => UInt8.ofNat (d + 2))).reverse

def countByte (lead : Nat) : Nat := max 1 (Nat.digits 253 lead).length + 1

theorem lead_lt (hv : v < 2 ^ 64) : v / 255 < 253 ^ 8 := by
  have hlt : v / 255 < 2 ^ 64 / 255 + 1 := by omega
  exact Nat.lt_of_lt_of_le hlt (by decide)

theorem encodeBig_eq (hv : v < 2 ^ 64) : encodeBig v = 0xff :: UInt8.ofNat (countByte (v / 255)) ::
      (leadBytes (v / 255) ++ remBytes (v % 255)) := by
  have hlead := lead_lt hv
  have hchars : chars 64 (v / 255) = (Nat.digits 253 (v / 255)).map _ :=
    chars_eq_digits (Nat.lt_of_lt_of_le hlead (Nat.pow_le_pow_right (by decide) (by decide)))
  unfold encodeBig
  dsimp only
  rw [countDigits_eq hlead (by decide) (by omega), hchars]
  rw [show (1 : UInt8) = UInt8.ofNat 1 from rfl, ← UInt8.ofNat_add]
  rfl

theorem countByte_lt (h : lead < 253 ^ 8) : countByte lead < 256 := by
  have hlen : (Nat.digits 253 lead).length ≤ 8 := (Nat.digits_length_le_iff (by decide) lead).mpr h
  unfold countByte
  omega

theorem remBytes_lt_leadBytes (h : 0 < lead) (rem : Nat) (rest : List UInt8) :
    remBytes rem < leadBytes lead ++ rest := by
  have hdigit : ∀ b ∈ leadBytes lead, 0x01 < b := by
    intro b hb
    unfold leadBytes at hb
    rw [mem_reverse, mem_map] at hb
    obtain ⟨d, hd, rfl⟩ := hb
    have hd : d < 253 := Nat.digits_lt_base (by decide) hd
    exact ofNat_lt_ofNat (m := 1) (by omega) (by omega)
  have hne : leadBytes lead ≠ [] := by
    unfold leadBytes
    rw [Ne, reverse_eq_nil_iff, map_eq_nil_iff, Nat.digits_eq_nil_iff_eq_zero]
    omega
  cases hbytes : leadBytes lead with
  | nil => exact absurd hbytes hne
  | cons b =>
    have hb := hdigit b (hbytes ▸ mem_cons_self)
    unfold remBytes
    split
    · rw [cons_append, cons_lt_cons_iff]
      exact .inl hb
    · exact nil_lt_cons _ _

theorem remBytes_lt {m : Nat} (hn : n < 256) (h : m < n) : remBytes m < remBytes n := by
  unfold remBytes
  rw [if_pos (show n > 0 by omega)]
  split
  · rw [cons_lt_cons_iff]
    refine .inr ⟨rfl, ?_⟩
    rw [cons_lt_cons_iff]
    exact .inl (ofNat_lt_ofNat hn h)
  · exact nil_lt_cons _ _

theorem leadBytes_append_lt (h : u < v) (hcount : countByte (u / 255) = countByte (v / 255)) :
    leadBytes (u / 255) ++ remBytes (u % 255) < leadBytes (v / 255) ++ remBytes (v % 255) := by
  by_cases hlead : u / 255 < v / 255
  · by_cases hzero : u / 255 = 0
    · rw [hzero]
      exact remBytes_lt_leadBytes (by omega) _ _
    -- Neither lead is zero, so both have as many digits as the second byte says.
    have hpos : ∀ {n : Nat}, n ≠ 0 → countByte n = (Nat.digits 253 n).length + 1 := by
      intro n hn
      have hlen : (Nat.digits 253 n).length ≠ 0 := by
        rw [Ne, length_eq_zero_iff, Nat.digits_eq_nil_iff_eq_zero]
        exact hn
      unfold countByte
      omega
    rw [hpos hzero, hpos (by omega)] at hcount
    apply append_lt_append_of_lt
    · unfold leadBytes
      simpa using hcount
    · exact digits_reverse_lt hlead (by omega)
  · have hsame : u / 255 = v / 255 := by omega
    rw [hsame]
    apply append_left_lt
    exact remBytes_lt (by omega) (by omega)

theorem encodeBig_lt (h : u < v) (hv : v < 2 ^ 64) : encodeBig u < encodeBig v := by
  have hlead := lead_lt hv
  have hle : countByte (u / 255) ≤ countByte (v / 255) := by
    have hmono : (Nat.digits 253 (u / 255)).length ≤ (Nat.digits 253 (v / 255)).length :=
      Nat.le_length_digits_le 253 _ _ (by omega)
    unfold countByte
    omega
  rw [encodeBig_eq (by omega), encodeBig_eq hv, cons_lt_cons_iff]
  refine .inr ⟨rfl, ?_⟩
  rw [cons_lt_cons_iff]
  by_cases hcount : countByte (u / 255) = countByte (v / 255)
  · exact .inr ⟨by rw [hcount], leadBytes_append_lt h hcount⟩
  · exact .inl (ofNat_lt_ofNat (countByte_lt hlead) (by omega))

/-! ## §4. Every number. -/

theorem encode_small (h : v < maxSmall) : encode v = encodeSmall v := by
  by_cases hzero : v = 0
  · subst hzero
    rfl
  · unfold encode
    rw [if_neg hzero, if_pos h]

theorem encode_big (h : ¬ v < maxSmall) : encode v = encodeBig (v - maxSmall) := by
  have hpos : v ≠ 0 := by
    intro hzero
    exact h (hzero ▸ by decide)
  unfold encode
  rw [if_neg hpos, if_neg h]

theorem encodeSmall_lt (h : u < v) (hv : v < maxSmall) : encodeSmall u < encodeSmall v := by
  have hv : v < 8258175 := hv
  rw [encodeSmall_eq, encodeSmall_eq, cons_lt_cons_iff]
  by_cases hhigh : u / 255 / 255 < v / 255 / 255
  · exact .inl (ofNat_lt_ofNat (by omega) (by omega))
  have hhigh : u / 255 / 255 = v / 255 / 255 := by omega
  refine .inr ⟨by rw [hhigh], ?_⟩
  rw [cons_lt_cons_iff]
  by_cases hmid : u / 255 % 255 < v / 255 % 255
  · exact .inl (ofNat_lt_ofNat (by omega) (by omega))
  have hmid : u / 255 % 255 = v / 255 % 255 := by omega
  refine .inr ⟨by rw [hmid], ?_⟩
  rw [cons_lt_cons_iff]
  exact .inl (ofNat_lt_ofNat (by omega) (by omega))

theorem encode_lt_encode (h : u < v) (hv : v < 2 ^ 64) : encode u < encode v := by
  by_cases hvs : v < maxSmall
  · rw [encode_small hvs, encode_small (Nat.lt_trans h hvs)]
    exact encodeSmall_lt h hvs
  rw [encode_big hvs]
  by_cases hus : u < maxSmall
  · -- The first byte of a small number is below 0xff.
    have hus' : u < 8258175 := hus
    rw [encode_small hus, encodeSmall_eq, encodeBig_eq (by omega), cons_lt_cons_iff]
    exact .inl (ofNat_lt_ofNat (n := 255) (by omega) (by omega))
  · rw [encode_big hus]
    exact encodeBig_lt (by omega) (by omega)

/-- **Keys sort as the numbers in them.** -/
theorem encode_lt_encode_iff (hu : u < 2 ^ 64) (hv : v < 2 ^ 64) : encode u < encode v ↔ u < v := by
  refine ⟨fun h => ?_, fun h => encode_lt_encode h hv⟩
  by_contra hnot
  rcases Nat.lt_or_eq_of_le (Nat.le_of_not_lt hnot) with hlt | heq
  · exact List.lt_asymm h (encode_lt_encode hlt hu)
  · exact List.lt_irrefl _ (heq ▸ h)

/-- **No byte of a number is the separator.** -/
theorem zero_not_mem_encode (hv : v < 2 ^ 64) : 0x00 ∉ encode v := by
  by_cases hsmall : v < maxSmall
  · have hv' : v < 8258175 := hsmall
    rw [encode_small hsmall, encodeSmall_eq]
    have h0 := ofNat_ne_zero (n := v / 255 / 255 + 128) (by omega) (by omega)
    have h1 := ofNat_ne_zero (n := v / 255 % 255 + 1) (by omega) (by omega)
    have h2 := ofNat_ne_zero (n := v % 255 + 1) (by omega) (by omega)
    simp only [mem_cons, not_mem_nil, or_false, not_or]
    exact ⟨h0.symm, h1.symm, h2.symm⟩
  rw [encode_big hsmall, encodeBig_eq (by omega)]
  have hv : v - maxSmall < 2 ^ 64 := by omega
  have hcount := ofNat_ne_zero (countByte_lt (lead_lt hv)) (Nat.succ_pos _)
  simp only [mem_cons, mem_append, not_or]
  refine ⟨by decide, hcount.symm, ?_, ?_⟩
  · unfold leadBytes
    rw [mem_reverse, mem_map]
    rintro ⟨d, hd, heq⟩
    have hd : d < 253 := Nat.digits_lt_base (by decide) hd
    exact ofNat_ne_zero (by omega) (by omega) heq
  unfold remBytes
  split
  next hrem =>
    have h := ofNat_ne_zero (n := (v - maxSmall) % 255) (by omega) hrem
    simp only [mem_cons, not_mem_nil, or_false, not_or]
    exact ⟨by decide, h.symm⟩
  · exact not_mem_nil

/-- **Numbers survive their encoding**: decoding gives back every number without a bound, every
power the digit count computes is exact, and no byte is the separator. -/
theorem numbers_round_trip (h : v < 2 ^ 64) :
    decode (encode v) = some v ∧ decodeWith id (encode v) = some v ∧
      (∀ n ≤ countDigits ((v - maxSmall) / 255) 64 1, pow 253 n = 253 ^ n) ∧ 0x00 ∉ encode v := by
  refine ⟨decode_encode h, decodeWith_encode (fun _ _ => rfl) h, ?_, zero_not_mem_encode h⟩
  intro n hn
  have hlead : (v - maxSmall) / 255 < 253 ^ 8 := lead_lt (by omega)
  have hlen := (Nat.digits_length_le_iff (b := 253) (by decide) ((v - maxSmall) / 255)).mpr hlead
  rw [countDigits_eq hlead (by decide) (by omega)] at hn
  exact pow_eq (by omega)

theorem numbers_round_trip_max : (2 ^ 64 - 1 < 2 ^ 64) ∧
    decode (encode (2 ^ 64 - 1)) = some (2 ^ 64 - 1) :=
  ⟨by decide, (numbers_round_trip (by decide)).1⟩

end Chainspace.Lexinum
