/-
  Chainspace.Config.ByteSize — sizes in a configuration (`config/bytesize.go`).

  A raw value is read from its end: the suffix up to the last digit, then the number. A byte stands
  for the character with its code, as `string(char)` makes it; `none` is an error.
-/
import Mathlib.Algebra.Group.Nat.Defs
import Mathlib.Data.List.Basic

namespace Chainspace.Config

/-- The suffixes of `UnmarshalYAML` and what they stand for. -/
def suffixes : List (List Char × Nat) :=
  [("".toList, 1), ("b".toList, 1), ("byte".toList, 1), ("bytes".toList, 1),
    ("k".toList, 2 ^ 10), ("kb".toList, 2 ^ 10), ("m".toList, 2 ^ 20), ("mb".toList, 2 ^ 20),
    ("g".toList, 2 ^ 30), ("gb".toList, 2 ^ 30), ("t".toList, 2 ^ 40), ("tb".toList, 2 ^ 40)]

def multiplier (suffix : List Char) : Option Nat := suffixes.lookup (suffix.map Char.toLower)

/-- `strconv.ParseUint` to base 10 and 64 bits. -/
def parseUint (s : List Char) : Option Nat :=
  let val := Nat.ofDigitChars 10 s 0
  if s ≠ [] ∧ s.all Char.isDigit ∧ val < 2 ^ 64 then some val else none

/-- The loop over the characters from the last one on: the number, or the old value where there is
no digit, and the suffix. -/
def scan (old : Nat) : List Char → List Char → Option (Nat × List Char)
  | [], suffix => some (old, suffix)
  | char :: rest, suffix =>
    if char.isDigit then (parseUint (char :: rest).reverse).map (·, suffix)
    else scan old rest (char :: suffix)

/-- `UnmarshalYAML` into a variable that holds `old`; the product is one of `uint64`. -/
def unmarshalYAML (old : Nat) (raw : List Char) : Option Nat := do
  let (b, suffix) ← scan old raw.reverse []
  let m ← multiplier suffix
  some (b * m % 2 ^ 64)

def marshalYAML (b : Nat) : List Char :=
  if b % 2 ^ 40 = 0 then Nat.toDigits 10 (b / 2 ^ 40) ++ "TB".toList
  else if b % 2 ^ 30 = 0 then Nat.toDigits 10 (b / 2 ^ 30) ++ "GB".toList
  else if b % 2 ^ 20 = 0 then Nat.toDigits 10 (b / 2 ^ 20) ++ "MB".toList
  else if b % 2 ^ 10 = 0 then Nat.toDigits 10 (b / 2 ^ 10) ++ "KB".toList
  else Nat.toDigits 10 b ++ "B".toList

/-- The raw value is the decimal number `n` before a suffix for `m`. -/
def Reads (raw : List Char) (n m : Nat) : Prop :=
  ∃ digits suffix, raw = digits ++ suffix ∧ digits ≠ [] ∧ digits.all Char.isDigit ∧
    n = Nat.ofDigitChars 10 digits 0 ∧ multiplier suffix = some m

variable {old n m : Nat} {raw acc suffix : List Char}

theorem toLower_of_isDigit {c : Char} (h : c.isDigit) : c.toLower = c := by
  unfold Char.toLower
  rw [dif_neg]
  simp only [Char.isDigit, Bool.and_eq_true, decide_eq_true_eq] at h
  intro hupper
  exact absurd (UInt32.le_trans hupper.1 h.2) (by decide)

theorem multiplier_some (h : multiplier suffix = some m) : (∀ c ∈ suffix, ¬ c.isDigit) ∧ 0 < m := by
  have hmem : (suffix.map Char.toLower, m) ∈ suffixes := by
    obtain ⟨l1, l2, heq, _⟩ := List.lookup_eq_some_iff.mp h
    rw [heq]
    simp
  have htable : ∀ e ∈ suffixes, e.1.any Char.isDigit = false ∧ 0 < e.2 := by decide
  refine ⟨fun c hc hdigit => ?_, (htable _ hmem).2⟩
  exact List.any_eq_false.mp (htable _ hmem).1 c
    (List.mem_map.mpr ⟨c, hc, toLower_of_isDigit hdigit⟩) hdigit

theorem scan_suffix {r : List Char} (h : ∀ c ∈ r, ¬ c.isDigit) (rest acc : List Char) :
    scan old (r ++ rest) acc = scan old rest (r.reverse ++ acc) := by
  induction r generalizing acc with
  | nil => rfl
  | cons c r ih =>
    obtain ⟨hc, hr⟩ := List.forall_mem_cons.mp h
    rw [List.cons_append, scan, if_neg hc, ih hr, List.reverse_cons, List.append_assoc]
    rfl

theorem scan_some {r s : List Char} (h : scan old r acc = some (n, s)) (hr : ∃ c ∈ r, c.isDigit) :
    ∃ digits suffix, r.reverse = digits ++ suffix ∧ parseUint digits = some n ∧
      s = suffix ++ acc := by
  induction r generalizing acc with
  | nil => exact absurd hr (by simp)
  | cons c r ih =>
    rw [scan] at h
    split at h
    next =>
      obtain ⟨val, hval, heq⟩ := Option.map_eq_some_iff.mp h
      cases heq
      exact ⟨_, [], (List.append_nil _).symm, hval, rfl⟩
    next hc =>
      obtain ⟨d, hd, hdigit⟩ := hr
      have hd : d ∈ r := (List.mem_cons.mp hd).resolve_left fun heq => hc (heq ▸ hdigit)
      obtain ⟨digits, suffix, hrev, hval, hs⟩ := ih h ⟨d, hd, hdigit⟩
      exact ⟨digits, suffix ++ [c], by rw [List.reverse_cons, hrev, List.append_assoc], hval,
        by rw [hs, List.append_assoc]; rfl⟩

theorem Reads.unmarshal (h : Reads raw n m) (hfits : n * m < 2 ^ 64) :
    unmarshalYAML old raw = some (n * m) := by
  obtain ⟨digits, suffix, rfl, hne, hdigits, rfl, hm⟩ := h
  obtain ⟨hsuffix, hpos⟩ := multiplier_some hm
  have hlt := Nat.lt_of_le_of_lt (Nat.le_mul_of_pos_right _ hpos) hfits
  have hscan : scan old (digits ++ suffix).reverse [] =
      some (Nat.ofDigitChars 10 digits 0, suffix) := by
    rw [List.reverse_append, scan_suffix (by simpa using hsuffix), List.reverse_reverse]
    cases hrev : digits.reverse with
    | nil => exact absurd (List.reverse_eq_nil_iff.mp hrev) hne
    | cons c rest =>
      have hc : c.isDigit :=
        List.all_eq_true.mp hdigits c (List.mem_reverse.mp (hrev ▸ List.mem_cons_self))
      rw [scan, if_pos hc, ← hrev, List.reverse_reverse, parseUint, if_pos ⟨hne, hdigits, hlt⟩]
      simp
  rw [unmarshalYAML, hscan]
  show (multiplier suffix).bind _ = _
  rw [hm]
  exact congrArg some (Nat.mod_eq_of_lt hfits)

theorem scan_no_digit (h : ∀ c ∈ raw, ¬ c.isDigit) : scan old raw.reverse [] = some (old, raw) := by
  have hscan := @scan_suffix old raw.reverse (by simpa using h) [] []
  rw [List.append_nil, List.append_nil, List.reverse_reverse] at hscan
  rw [hscan]
  rfl

theorem Reads.exists_digit (h : Reads raw n m) : ∃ c ∈ raw, c.isDigit := by
  obtain ⟨digits, suffix, rfl, hne, hdigits, _⟩ := h
  obtain ⟨c, hc⟩ := List.exists_mem_of_ne_nil digits hne
  exact ⟨c, List.mem_append_left suffix hc, List.all_eq_true.mp hdigits c hc⟩

/-- What is read from a raw value with a digit is the size it stands for, up to wrapping. -/
theorem reads_of_unmarshal {v : Nat} (h : unmarshalYAML old raw = some v)
    (hdigit : ∃ c ∈ raw, c.isDigit) : ∃ n m, Reads raw n m ∧ v = n * m % 2 ^ 64 := by
  obtain ⟨⟨n, s⟩, hscan, h⟩ := Option.bind_eq_some_iff.mp h
  have h : (multiplier s).bind (fun m => some (n * m % 2 ^ 64)) = some v := h
  obtain ⟨m, hm, hv⟩ := Option.bind_eq_some_iff.mp h
  obtain ⟨digits, suffix, hraw, hval, rfl⟩ := scan_some hscan (by simpa using hdigit)
  rw [parseUint] at hval
  split at hval
  next hs =>
    cases hval
    cases hv
    rw [List.reverse_reverse] at hraw
    rw [List.append_nil] at hm
    exact ⟨_, m, ⟨digits, suffix, hraw, hs.1, hs.2.1, rfl, hm⟩, rfl⟩
  next => exact nomatch hval

theorem unmarshalYAML_lt {v : Nat} (h : unmarshalYAML old raw = some v) : v < 2 ^ 64 := by
  obtain ⟨⟨n, s⟩, _, h⟩ := Option.bind_eq_some_iff.mp h
  have h : (multiplier s).bind (fun m => some (n * m % 2 ^ 64)) = some v := h
  obtain ⟨m, _, hv⟩ := Option.bind_eq_some_iff.mp h
  cases hv
  exact Nat.mod_lt _ (by decide)

/-- **A raw value is read exactly as the number with a suffix that it is, if it is one, just when
it has a digit or no recognised suffix and its size fits in 64 bits; and every size is read back
from its text.** -/
theorem unmarshalYAML_exact_iff (old : Nat) :
    (∀ raw, (∀ v, unmarshalYAML old raw = some v ↔ ∃ n m, Reads raw n m ∧ v = n * m) ↔
      ((∃ c ∈ raw, c.isDigit) ∨ multiplier raw = none) ∧
        ∀ n m, Reads raw n m → n * m < 2 ^ 64) ∧
    ∀ b, b < 2 ^ 64 → unmarshalYAML old (marshalYAML b) = some b := by
  constructor
  · intro raw
    constructor
    · intro hexact
      refine ⟨?_, fun n m hreads => unmarshalYAML_lt ((hexact _).mpr ⟨n, m, hreads, rfl⟩)⟩
      by_cases hdigit : ∃ c ∈ raw, c.isDigit
      · exact .inl hdigit
      -- Without a digit the old value is multiplied, and nothing is a number.
      have hno : ∀ c ∈ raw, ¬ c.isDigit := fun c hc hd => hdigit ⟨c, hc, hd⟩
      refine .inr ?_
      cases hm : multiplier raw with
      | none => rfl
      | some m =>
        have hval : unmarshalYAML old raw = some (old * m % 2 ^ 64) := by
          rw [unmarshalYAML, scan_no_digit hno]
          show (multiplier raw).bind _ = _
          rw [hm]
          rfl
        obtain ⟨_, _, hreads, _⟩ := (hexact _).mp hval
        exact absurd hreads.exists_digit hdigit
    · rintro ⟨hcase, hfits⟩ v
      constructor
      · intro h
        by_cases hdigit : ∃ c ∈ raw, c.isDigit
        · obtain ⟨n, m, hreads, hv⟩ := reads_of_unmarshal h hdigit
          exact ⟨n, m, hreads, hv.trans (Nat.mod_eq_of_lt (hfits n m hreads))⟩
        -- An unknown suffix without a number is an error.
        have hno : ∀ c ∈ raw, ¬ c.isDigit := fun c hc hd => hdigit ⟨c, hc, hd⟩
        rw [unmarshalYAML, scan_no_digit hno] at h
        have h : (multiplier raw).bind (fun m => some (old * m % 2 ^ 64)) = some v := h
        rw [hcase.resolve_left hdigit] at h
        cases h
      · rintro ⟨n, m, hreads, rfl⟩
        exact hreads.unmarshal (hfits n m hreads)
  intro b hb
  have hkey : ∀ suffix m, multiplier suffix = some m → b % m = 0 →
      unmarshalYAML old (Nat.toDigits 10 (b / m) ++ suffix) = some b := by
    intro suffix m hm hmod
    have hreads : Reads (Nat.toDigits 10 (b / m) ++ suffix) (b / m) m :=
      ⟨_, suffix, rfl, Nat.toDigits_ne_nil,
        List.all_eq_true.mpr fun c hc => Nat.isDigit_of_mem_toDigits (by decide) (by decide) hc,
        Nat.ofDigitChars_ten_toDigits.symm, hm⟩
    have hb' : b / m * m = b := Nat.div_mul_cancel (Nat.dvd_of_mod_eq_zero hmod)
    rw [hreads.unmarshal (by omega), hb']
  unfold marshalYAML
  split
  next h => exact hkey _ _ (by decide) h
  next =>
    split
    next h => exact hkey _ _ (by decide) h
    next =>
      split
      next h => exact hkey _ _ (by decide) h
      next =>
        split
        next h => exact hkey _ _ (by decide) h
        next => simpa using hkey "B".toList 1 (by decide) (Nat.mod_one b)

/-- Without a digit the old value stays, and a product that does not fit wraps. -/
theorem unmarshalYAML_accepts :
    unmarshalYAML 7 [] = some 7 ∧ (∀ n m, ¬ Reads [] n m) ∧
      Reads "16777216TB".toList 16777216 (2 ^ 40) ∧
      unmarshalYAML 7 "16777216TB".toList = some 0 := by
  refine ⟨by decide, ?_, ⟨"16777216".toList, "TB".toList, by decide⟩, by decide⟩
  rintro n m ⟨digits, suffix, heq, hne, _⟩
  exact hne (List.append_eq_nil_iff.mp heq.symm).1

end Chainspace.Config
