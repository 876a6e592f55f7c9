/-
  Chainspace.Blockmania.Bitset — the vote sets of `blockmania/bitset.go`.

  One bit set of prepare votes and one of commit votes, each packed into 64-bit words.  Every
  access goes through the slice index check, so the setters and tests are partial: `none` is the
  run-time panic of an index out of range.
-/
import Chainspace.Lib.WordSet

namespace Chainspace.Blockmania

open Chainspace.Lib

structure Bitset where
  commits : List Nat
  prepares : List Nat
  deriving DecidableEq, Repr

def newBitset (size : Nat) : Bitset :=
  let words := (size + 63) >>> 6
  ⟨List.replicate words 0, List.replicate words 0⟩

namespace Bitset

def clone (b : Bitset) : Bitset := ⟨b.commits, b.prepares⟩

def commitCount (b : Bitset) : Nat := countBits b.commits

def prepareCount (b : Bitset) : Nat := countBits b.prepares

def hasCommit (b : Bitset) (v : Nat) : Option Bool := hasBit b.commits v

def hasPrepare (b : Bitset) (v : Nat) : Option Bool := hasBit b.prepares v

def setCommit (b : Bitset) (v : Nat) : Option Bitset :=
  (setBit b.commits v).map (fun ws => { b with commits := ws })

def setPrepare (b : Bitset) (v : Nat) : Option Bitset :=
  (setBit b.prepares v).map (fun ws => { b with prepares := ws })

/-! ## The voters a bit set counts. -/

def committers (b : Bitset) : Finset Nat := members b.commits

def preparers (b : Bitset) : Finset Nat := members b.prepares

theorem prepareCount_eq_card (b : Bitset) : b.prepareCount = b.preparers.card :=
  countBits_eq_card b.prepares

theorem commitCount_eq_card (b : Bitset) : b.commitCount = b.committers.card :=
  countBits_eq_card b.commits

variable {b b' : Bitset} {v : Nat}

theorem preparers_setPrepare (h : b.setPrepare v = some b') :
    b'.preparers = insert v b.preparers := by
  simp only [setPrepare, Option.map_eq_some_iff] at h
  obtain ⟨ws, hws, rfl⟩ := h
  exact members_setBit hws

theorem committers_setPrepare (h : b.setPrepare v = some b') : b'.committers = b.committers := by
  simp only [setPrepare, Option.map_eq_some_iff] at h
  obtain ⟨ws, -, rfl⟩ := h
  rfl

theorem committers_setCommit (h : b.setCommit v = some b') :
    b'.committers = insert v b.committers := by
  simp only [setCommit, Option.map_eq_some_iff] at h
  obtain ⟨ws, hws, rfl⟩ := h
  exact members_setBit hws

theorem preparers_setCommit (h : b.setCommit v = some b') : b'.preparers = b.preparers := by
  simp only [setCommit, Option.map_eq_some_iff] at h
  obtain ⟨ws, -, rfl⟩ := h
  rfl

@[simp] theorem preparers_newBitset (size : Nat) : (newBitset size).preparers = ∅ :=
  members_replicate_zero _

@[simp] theorem committers_newBitset (size : Nat) : (newBitset size).committers = ∅ :=
  members_replicate_zero _

/-! ## Bit sets over a run. -/

/-- The calls on the bit sets `x 0`, `x 1` and so on; `clone i j` makes `x j` a clone of `x i`. -/
inductive Op
  | setCommit (i v : Nat)
  | setPrepare (i v : Nat)
  | clone (i j : Nat)

def Op.step (x : Nat → Bitset) : Op → Option (Nat → Bitset)
  | .setCommit i v => ((x i).setCommit v).map (Function.update x i)
  | .setPrepare i v => ((x i).setPrepare v).map (Function.update x i)
  | .clone i j => some (Function.update x j (x i).clone)

/-- The IDs passed to a bit set, or to its original before it was cloned. -/
structure Voters where
  commits : Finset Nat
  prepares : Finset Nat

def Op.voters (vs : Nat → Voters) : Op → Nat → Voters
  | .setCommit i v => Function.update vs i { vs i with commits := insert v (vs i).commits }
  | .setPrepare i v => Function.update vs i { vs i with prepares := insert v (vs i).prepares }
  | .clone i j => Function.update vs j (vs i)

def Op.InRange (words : Nat) : Op → Prop
  | .setCommit _ v | .setPrepare _ v => v < 64 * words
  | .clone .. => True

structure Packs (words : Nat) (b : Bitset) (x : Voters) : Prop where
  commits : b.commits.length = words
  prepares : b.prepares.length = words
  committers : b.committers = x.commits
  preparers : b.preparers = x.prepares

section Run
variable {words : Nat} {x : Nat → Bitset} {vs : Nat → Voters}

theorem Packs.update (h : ∀ i, Packs words (x i) (vs i)) {y : Voters} (hb : Packs words b y)
    (i j : Nat) : Packs words (Function.update x i b j) (Function.update vs i y j) := by
  by_cases hji : j = i
  · rw [hji, Function.update_self, Function.update_self]
    exact hb
  · rw [Function.update_of_ne hji, Function.update_of_ne hji]
    exact h j

theorem Packs.step (h : ∀ i, Packs words (x i) (vs i)) {op : Op} (hop : op.InRange words) :
    ∃ x', op.step x = some x' ∧ ∀ i, Packs words (x' i) (op.voters vs i) := by
  cases op with
  | setCommit i v =>
    have hv : v < 64 * words := hop
    have hset := (setBit_isSome (x i).commits v).mpr (by rw [(h i).commits]; omega)
    obtain ⟨ws, hws⟩ := Option.isSome_iff_exists.mp hset
    refine ⟨_, by rw [Op.step, setCommit, hws]; rfl, update h ?_ i⟩
    exact ⟨(setBit_length hws).trans (h i).commits, (h i).prepares,
      (members_setBit hws).trans (congrArg (insert v) (h i).committers), (h i).preparers⟩
  | setPrepare i v =>
    have hv : v < 64 * words := hop
    have hset := (setBit_isSome (x i).prepares v).mpr (by rw [(h i).prepares]; omega)
    obtain ⟨ws, hws⟩ := Option.isSome_iff_exists.mp hset
    refine ⟨_, by rw [Op.step, setPrepare, hws]; rfl, update h ?_ i⟩
    exact ⟨(h i).commits, (setBit_length hws).trans (h i).prepares, (h i).committers,
      (members_setBit hws).trans (congrArg (insert v) (h i).preparers)⟩
  | clone i j => exact ⟨_, rfl, update h (h i) j⟩

theorem Packs.run {ops : List Op} (hops : ∀ op ∈ ops, op.InRange words)
    (h : ∀ i, Packs words (x i) (vs i)) :
    ∃ x', ops.foldlM Op.step x = some x' ∧ ∀ i, Packs words (x' i) (ops.foldl Op.voters vs i) := by
  induction ops generalizing x vs with
  | nil => exact ⟨x, rfl, h⟩
  | cons op ops ih =>
    obtain ⟨hop, hops⟩ := List.forall_mem_cons.mp hops
    obtain ⟨x1, hx1, h1⟩ := Packs.step h hop
    rw [List.foldlM_cons, hx1]
    exact ih hops h1

end Run

theorem hasBit_eq {ws : List Nat} (hv : v < 64 * ws.length) :
    hasBit ws v = some (decide (v ∈ members ws)) := by
  obtain ⟨c, hc⟩ := Option.isSome_iff_exists.mp ((hasBit_isSome ws v).mpr (by omega))
  rw [hc, hasBit_eq_some hc]

/-- **After any calls each bit set counts and holds exactly the IDs it was given, or its original
before the clone.** -/
theorem counts_voters {size : Nat} {ops : List Op}
    (hops : ∀ op ∈ ops, op.InRange ((size + 63) / 64)) :
    ∃ x vs, ops.foldlM Op.step (fun _ => newBitset size) = some x ∧
      ops.foldl Op.voters (fun _ => ⟨∅, ∅⟩) = vs ∧
      ∀ i, (x i).commitCount = (vs i).commits.card ∧ (x i).prepareCount = (vs i).prepares.card ∧
        ∀ v < 64 * ((size + 63) / 64),
          (x i).hasCommit v = some (decide (v ∈ (vs i).commits)) ∧
          (x i).hasPrepare v = some (decide (v ∈ (vs i).prepares)) := by
  have hwords : (newBitset size).commits.length = (size + 63) / 64 := by
    simp [newBitset, shiftRight_six]
  have hnew : Packs ((size + 63) / 64) (newBitset size) ⟨∅, ∅⟩ :=
    ⟨hwords, hwords, committers_newBitset size, preparers_newBitset size⟩
  obtain ⟨x, hx, h⟩ := Packs.run hops fun _ => hnew
  refine ⟨x, _, hx, rfl, fun i => ?_⟩
  rw [commitCount_eq_card, prepareCount_eq_card, ← (h i).committers, ← (h i).preparers]
  refine ⟨rfl, rfl, fun v hv => ⟨hasBit_eq ?_, hasBit_eq ?_⟩⟩
  · rw [(h i).commits]
    exact hv
  · rw [(h i).prepares]
    exact hv

theorem counts_voters_clone : ∃ x, (x 0).prepareCount = 1 ∧ (x 1).prepareCount = 2 ∧
    [Op.setPrepare 0 3, .clone 0 1, .setPrepare 1 70].foldlM Op.step (fun _ => newBitset 100) =
      some x := by
  have hops : ∀ op ∈ [Op.setPrepare 0 3, .clone 0 1, .setPrepare 1 70],
      op.InRange ((100 + 63) / 64) := by simp [Op.InRange]
  obtain ⟨x, _, hx, rfl, h⟩ := counts_voters hops
  exact ⟨x, (h 0).2.1, (h 1).2.1, hx⟩

end Bitset

end Chainspace.Blockmania
