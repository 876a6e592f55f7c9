/-
  Chainspace.Lib.SortedTable — a table that keeps its keys in order, and iterators over it.

  An iterator seeks the first key that is not below a start, and goes on while the keys are valid.
  If the valid keys are next to each other in the order, that is a filter (`scan_eq_filter`), as for
  byte strings that share a prefix (`prefix_of_between`). A key of fields, each ended by a separator
  that no field contains, is compared field by field (`append_sep_lt`).
-/
import Mathlib.Data.List.Basic

namespace Chainspace.Lib

open List

/-! ## §1. Tables. -/

/-- Entries in the order of their keys. -/
structure SortedTable (K V : Type) [LT K] where
  entries : List (K × V)
  sorted : entries.Pairwise (fun a b => a.1 < b.1)

section Table
variable {K V : Type} [LT K] [DecidableLT K]

/-- The entries with a value for a key, in place of the one they had. -/
def insertEntry (k : K) (v : V) : List (K × V) → List (K × V)
  | [] => [(k, v)]
  | e :: es =>
    if k < e.1 then (k, v) :: e :: es
    else if e.1 < k then e :: insertEntry k v es
    else (k, v) :: es

section Insert
variable [Std.Irrefl (fun a b : K => a < b)] [Std.Trichotomous (fun a b : K => a < b)]
  [IsTrans K (fun a b => a < b)] {k : K} {v : V} {e : K × V} {es : List (K × V)}

theorem mem_insertEntry (hes : es.Pairwise (fun a b => a.1 < b.1)) :
    e ∈ insertEntry k v es ↔ e = (k, v) ∨ e ∈ es ∧ e.1 ≠ k := by
  have hirrefl : ∀ a : K, ¬ a < a := Std.Irrefl.irrefl
  -- A key is not found among entries behind a key it is not above.
  have hbehind : ∀ {x : K × V} {xs : List (K × V)}, (x :: xs).Pairwise (fun a b => a.1 < b.1) →
      ¬ x.1 < k → ∀ y ∈ xs, y.1 ≠ k := by
    intro x xs hxs hx y hy heq
    exact hx (heq ▸ rel_of_pairwise_cons hxs hy)
  induction es with
  | nil => simp [insertEntry]
  | cons x xs ih =>
    unfold insertEntry
    by_cases hlt : k < x.1
    · rw [if_pos hlt]
      have hnot : ¬ x.1 < k := fun hgt => hirrefl k (IsTrans.trans k x.1 k hlt hgt)
      have hx : x.1 ≠ k := fun heq => hirrefl k (heq ▸ hlt)
      have hxs := hbehind hes hnot
      rw [mem_cons]
      refine or_congr_right ⟨fun he => ⟨he, ?_⟩, And.left⟩
      rcases mem_cons.mp he with he | he
      · exact he ▸ hx
      · exact hxs e he
    rw [if_neg hlt]
    by_cases hgt : x.1 < k
    · have hmem : e ∈ insertEntry k v xs ↔ e = (k, v) ∨ e ∈ xs ∧ e.1 ≠ k := ih hes.of_cons
      rw [if_pos hgt, mem_cons, hmem, mem_cons]
      have hx : x.1 ≠ k := fun heq => hirrefl k (heq ▸ hgt)
      constructor
      · rintro (he | he | ⟨he, hne⟩)
        · exact .inr ⟨.inl he, he ▸ hx⟩
        · exact .inl he
        · exact .inr ⟨.inr he, hne⟩
      rintro (he | ⟨he | he, hne⟩)
      · exact .inr (.inl he)
      · exact .inl he
      · exact .inr (.inr ⟨he, hne⟩)
    rw [if_neg hgt, mem_cons, mem_cons]
    have hx : k = x.1 := Std.Trichotomous.trichotomous _ _ hlt hgt
    have hxs := hbehind hes hgt
    refine or_congr_right ⟨fun he => ⟨.inr he, hxs e he⟩, ?_⟩
    rintro ⟨he | he, hne⟩
    · exact absurd (he ▸ hx.symm) hne
    · exact he

theorem insertEntry_sorted (hes : es.Pairwise (fun a b => a.1 < b.1)) :
    (insertEntry k v es).Pairwise (fun a b => a.1 < b.1) := by
  induction es with
  | nil => exact pairwise_singleton _ _
  | cons x xs ih =>
    have hxs := hes.of_cons
    have hhead : ∀ y ∈ xs, x.1 < y.1 := fun y hy => rel_of_pairwise_cons hes hy
    unfold insertEntry
    by_cases hlt : k < x.1
    · rw [if_pos hlt]
      refine List.Pairwise.cons ?_ hes
      intro y hy
      rcases mem_cons.mp hy with hy | hy
      · exact hy ▸ hlt
      · exact IsTrans.trans k x.1 y.1 hlt (hhead y hy)
    rw [if_neg hlt]
    by_cases hgt : x.1 < k
    · rw [if_pos hgt]
      refine List.Pairwise.cons ?_ (ih hxs)
      intro y hy
      rcases (mem_insertEntry hxs).mp hy with hy | ⟨hy, _⟩
      · exact hy ▸ hgt
      · exact hhead y hy
    rw [if_neg hgt]
    have hx : k = x.1 := Std.Trichotomous.trichotomous _ _ hlt hgt
    refine List.Pairwise.cons ?_ hxs
    intro y hy
    exact hx ▸ hhead y hy

/-- A value is written. -/
def SortedTable.set (t : SortedTable K V) (k : K) (v : V) : SortedTable K V :=
  ⟨insertEntry k v t.entries, insertEntry_sorted t.sorted⟩

theorem SortedTable.mem_set {t : SortedTable K V} :
    e ∈ (t.set k v).entries ↔ e = (k, v) ∨ e ∈ t.entries ∧ e.1 ≠ k :=
  mem_insertEntry t.sorted

end Insert

end Table

section Delete
variable {K V : Type} [LT K]

/-- A key is deleted. -/
def SortedTable.delete [DecidableEq K] (t : SortedTable K V) (k : K) : SortedTable K V :=
  ⟨t.entries.filter (fun e => e.1 ≠ k), t.sorted.filter _⟩

theorem SortedTable.mem_delete [DecidableEq K] {t : SortedTable K V} {k : K} {e : K × V} :
    e ∈ (t.delete k).entries ↔ e ∈ t.entries ∧ e.1 ≠ k := by
  unfold SortedTable.delete
  simp

end Delete

/-! ## §2. Iterators. -/

section Scan
variable {K V : Type} [LT K] [DecidableLT K]

/-- The entries an iterator visits: from the first key not below `start`, while the keys are valid.
-/
def scan (start : K) (valid : K → Bool) (es : List (K × V)) : List (K × V) :=
  (es.dropWhile (fun e => e.1 < start)).takeWhile (fun e => valid e.1)

/-- **An iterator visits the valid keys from its start on**, if these are contiguous. -/
theorem scan_eq_filter [IsTrans K (fun a b => a < b)] {start : K} {valid : K → Bool}
    (hvalid : ∀ a b, ¬ a < start → a < b → valid b = true → valid a = true) {es : List (K × V)}
    (hes : es.Pairwise (fun a b => a.1 < b.1)) :
    scan start valid es = es.filter (fun e => !decide (e.1 < start) && valid e.1) := by
  -- Behind the start, the entries are visited up to the first that is not valid.
  have htake : ∀ {xs : List (K × V)}, xs.Pairwise (fun a b => a.1 < b.1) →
      (∀ x ∈ xs, ¬ x.1 < start) → xs.takeWhile (fun e => valid e.1) =
        xs.filter (fun e => !decide (e.1 < start) && valid e.1) := by
    intro xs hxs hstart
    induction xs with
    | nil => rfl
    | cons x xs ih =>
      have hx := hstart x mem_cons_self
      cases hv : valid x.1 with
      | true =>
        rw [takeWhile_cons_of_pos (by exact hv), filter_cons_of_pos (by simp [hx, hv]),
          ih hxs.of_cons (fun y hy => hstart y (mem_cons_of_mem x hy))]
      | false =>
        rw [takeWhile_cons_of_neg (by simp [hv])]
        symm
        rw [filter_eq_nil_iff]
        intro y hy hyes
        rcases mem_cons.mp hy with hy | hy
        · rw [hy, hv] at hyes
          simp at hyes
        have hvy : valid y.1 = true := by
          simp only [Bool.and_eq_true] at hyes
          exact hyes.2
        have hless := rel_of_pairwise_cons hxs hy
        rw [hvalid x.1 y.1 hx hless hvy] at hv
        cases hv
  unfold scan
  induction es with
  | nil => rfl
  | cons x xs ih =>
    by_cases hx : x.1 < start
    · rw [dropWhile_cons_of_pos (by simpa using hx), ih hes.of_cons,
        filter_cons_of_neg (by simp [hx])]
    rw [dropWhile_cons_of_neg (by simpa using hx)]
    apply htake hes
    intro y hy
    rcases mem_cons.mp hy with hy | hy
    · exact hy ▸ hx
    · intro hlt
      exact hx (IsTrans.trans x.1 y.1 start (rel_of_pairwise_cons hes hy) hlt)

end Scan

/-! ## §3. Keys that are strings. -/

section Strings
variable {α : Type} [LT α]

/-- A string between two that share a prefix has it too. -/
theorem prefix_of_between {p a b s : List α} (hs : p <+: s) (hb : p <+: b) (hsa : ¬ a < s)
    (hab : a < b) : p <+: a := by
  induction p generalizing a b s with
  | nil => exact nil_prefix
  | cons c p ih =>
    obtain ⟨s', rfl⟩ := hs
    obtain ⟨b', rfl⟩ := hb
    cases a with
    | nil => exact absurd (nil_lt_cons _ _) hsa
    | cons d =>
      rw [cons_append, cons_lt_cons_iff, not_or, not_and] at hsa
      rw [cons_append, cons_lt_cons_iff] at hab
      obtain ⟨hdc, hrest⟩ := hab.resolve_left hsa.1
      subst hdc
      have ha := ih (prefix_append p s') (prefix_append p b') (hsa.2 rfl) hrest
      exact (prefix_cons_inj d).mpr ha

variable {z : α} {a b x y : List α}

/-- **Fields are compared one by one**: the separator is below every other letter, and in no
field. -/
theorem append_sep_lt [Std.Asymm (fun a b : α => a < b)] (hz : ∀ c, c ≠ z → z < c) (ha : z ∉ a)
    (hb : z ∉ b) :
    a ++ z :: x < b ++ z :: y ↔ a < b ∨ a = b ∧ x < y := by
  induction a generalizing b with
  | nil =>
    cases b with
    | nil =>
      simp
    | cons d =>
      have hd : d ≠ z := fun h => hb (h ▸ mem_cons_self)
      rw [nil_append, cons_append, cons_lt_cons_iff]
      simp [hz d hd]
  | cons c a ih =>
    have hc : c ≠ z := fun h => ha (h ▸ mem_cons_self)
    cases b with
    | nil =>
      have hzc : ¬ c < z := Std.Asymm.asymm (r := fun a b : α => a < b) z c (hz c hc)
      rw [nil_append, cons_append, cons_lt_cons_iff]
      simp [hzc, hc]
    | cons d b =>
      have hih : a ++ z :: x < b ++ z :: y ↔ a < b ∨ a = b ∧ x < y :=
        ih (fun h => ha (mem_cons_of_mem c h)) (fun h => hb (mem_cons_of_mem d h))
      rw [cons_append, cons_append, cons_lt_cons_iff, hih, cons_lt_cons_iff, List.cons.injEq]
      tauto

/-- A field that is ended, and the beginning of a field. -/
theorem append_sep_lt_field (hz : ∀ c, c ≠ z → z < c) (ha : z ∉ a) (hb : z ∉ b) :
    a ++ z :: x < b ↔ a < b := by
  induction a generalizing b with
  | nil =>
    cases b with
    | nil => simp
    | cons d =>
      have hd : d ≠ z := fun h => hb (h ▸ mem_cons_self)
      rw [nil_append, cons_lt_cons_iff]
      simp [hz d hd]
  | cons c a ih =>
    cases b with
    | nil => simp
    | cons d b =>
      have hih : a ++ z :: x < b ↔ a < b :=
        ih (fun h => ha (mem_cons_of_mem c h)) (fun h => hb (mem_cons_of_mem d h))
      rw [cons_append, cons_lt_cons_iff, hih, cons_lt_cons_iff]

/-- Strings of one length are compared without what follows. -/
theorem append_lt_append_of_lt (hlen : a.length = b.length) (h : a < b) : a ++ x < b ++ y := by
  induction a generalizing b with
  | nil =>
    cases b with
    | nil => exact absurd h (not_lt_nil _)
    | cons => cases hlen
  | cons c a ih =>
    cases b with
    | nil => cases hlen
    | cons =>
      rw [cons_lt_cons_iff] at h
      rw [cons_append, cons_append, cons_lt_cons_iff]
      rcases h with h | ⟨h, hrest⟩
      · exact .inl h
      · exact .inr ⟨h, ih (by simpa using hlen) hrest⟩

end Strings

end Chainspace.Lib
