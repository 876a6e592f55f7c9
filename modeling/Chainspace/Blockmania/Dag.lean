/-
  Chainspace.Blockmania.Dag — the block DAG a shard builds, and the votes one can read off it.

  What a node votes for in view 0 is a matter of the DAG alone: the author of a chain votes for the
  first block of `(node, round)` it comes across (`Dag.seen`). A hash is BACKED if `2f + 1` members
  have come across it first; at most one is, since two such sets share a member that does not
  equivocate, whose blocks form one chain.

  Main results:
    • `Dag.Shard.seen_of_dep` — a reference to a node that does not equivocate is to the block the
      chain has come across first.
    • `Dag.Shard.backed_unique` — at most one hash is backed.
    • `Dag.Shard.allowed_unique` — a node's round can be decided with one hash only.
-/
import Chainspace.Blockmania.Chain
import Chainspace.Lib.Quorum

namespace Chainspace.Blockmania

open Chainspace.Lib

/-! ## §1. The DAG. -/

/-- A set of blocks, with the previous block and the references of each. -/
structure Dag where
  blocks : Set BlockID
  prev : BlockID → BlockID
  deps : BlockID → List BlockID

namespace Dag

/-- A node equivocates if two of its blocks have the same round or previous block. -/
def Equivocates (D : Dag) (x : Nat) : Prop :=
  ∃ a ∈ D.blocks, ∃ b ∈ D.blocks, a ≠ b ∧ a.node = x ∧ b.node = x ∧
    (a.round = b.round ∨ D.prev a = D.prev b)

/-- **A shard of `3f + 1` members and the DAG it built**, with at most `f` members that
equivocate. -/
structure Shard (D : Dag) (nodes : List Nat) (f : Nat) : Prop where
  size : nodes.length = 3 * f + 1
  nodup : nodes.Nodup
  faulty : ∃ F : Finset Nat, F.card ≤ f ∧ ∀ x, D.Equivocates x → x ∈ F
  author : ∀ b ∈ D.blocks, b.node ∈ nodes
  valid : ∀ b ∈ D.blocks, b.hash ≠ []
  digest : ∀ a ∈ D.blocks, ∀ b ∈ D.blocks, a.hash = b.hash → a = b
  prev : ∀ b ∈ D.blocks, (b.round = 1 ∧ D.prev b = BlockID.zero) ∨
    (D.prev b ∈ D.blocks ∧ (D.prev b).node = b.node ∧ (D.prev b).round + 1 = b.round)
  deps : ∀ b ∈ D.blocks, ∀ d ∈ D.deps b, d ∈ D.blocks ∧ d.node ≠ b.node

/-! ## §2. The first block of a node and round a chain comes across. -/

/-- The hash of the first block of `nr` in a list. -/
def firstOf (nr : NodeRound) (bs : List BlockID) : Option Hash :=
  (bs.find? (fun b => b.node = nr.node ∧ b.round = nr.round)).map BlockID.hash

/-- The first block of `nr` among the newest `r` blocks of a chain and their references. -/
def seenIn (D : Dag) (nr : NodeRound) : Nat → BlockID → Option Hash
  | 0, _ => none
  | r + 1, b => (D.seenIn nr r (D.prev b)).or (firstOf nr (b :: D.deps b))

/-- The first block of `nr` that the author of `b` has come across, up to `b`. -/
def seen (D : Dag) (nr : NodeRound) (b : BlockID) : Option Hash := D.seenIn nr b.round b

/-- Some block of the author of a chain has come across `hash` first. -/
def Votes (D : Dag) (nr : NodeRound) (x : Nat) (hash : Hash) : Prop :=
  ∃ b ∈ D.blocks, b.node = x ∧ D.seen nr b = some hash

/-- `2f + 1` members have come across `hash` first. -/
def Backed (D : Dag) (nodes : List Nat) (f : Nat) (nr : NodeRound) (hash : Hash) : Prop :=
  ∃ Q : Finset Nat, Q ⊆ nodes.toFinset ∧ 2 * f + 1 ≤ Q.card ∧ ∀ x ∈ Q, D.Votes nr x hash

/-- The hashes `nr` may be decided with: a backed one, or the empty one if none is backed. -/
def Allowed (D : Dag) (nodes : List Nat) (f : Nat) (nr : NodeRound) (hash : Hash) : Prop :=
  nr.node ∈ nodes ∧
    (D.Backed nodes f nr hash ∨ (hash = [] ∧ ∀ hash', ¬ D.Backed nodes f nr hash'))

/-- No chain refers to two blocks of one node and round: a reference is to the block the chain has
come across first. Only a node that equivocates can have a second one (`Shard.seen_of_dep`). -/
def RefersOnce (D : Dag) : Prop :=
  ∀ b ∈ D.blocks, ∀ d ∈ D.deps b, D.seen ⟨d.node, d.round⟩ b = some d.hash

theorem firstOf_eq_some {nr : NodeRound} {bs : List BlockID} {hash : Hash}
    (h : firstOf nr bs = some hash) : (⟨hash, nr.node, nr.round⟩ : BlockID) ∈ bs := by
  obtain ⟨b, hb, hh⟩ := Option.map_eq_some_iff.mp h
  have hmem := List.mem_of_find?_eq_some hb
  have hnr := List.find?_some hb
  have hnr : b.node = nr.node ∧ b.round = nr.round := by simpa using hnr
  rwa [← hh, ← hnr.1, ← hnr.2]

theorem firstOf_self {b : BlockID} {nr : NodeRound} (hn : b.node = nr.node)
    (hr : b.round = nr.round) (bs : List BlockID) : firstOf nr (b :: bs) = some b.hash := by
  unfold firstOf
  rw [List.find?_cons_of_pos (by simp [hn, hr])]
  rfl

section Shard
variable {D : Dag} {nodes : List Nat} {f : Nat} (hD : D.Shard nodes f) {nr : NodeRound}
include hD

variable {b : BlockID} {hash hash' : Hash}

/-- What a chain has come across: what its previous block had, else the block itself, else the first
reference that fits. -/
theorem Shard.seen_eq (hb : b ∈ D.blocks) :
    D.seen nr b = (if b.round = 1 then none else D.seen nr (D.prev b)).or
      (firstOf nr (b :: D.deps b)) := by
  unfold seen
  rcases hD.prev b hb with ⟨h1, _⟩ | ⟨hp, _, hr⟩
  · rw [h1]
    rfl
  have hpos : 1 ≤ (D.prev b).round := by
    rcases hD.prev _ hp with ⟨h1, _⟩ | _
    · exact h1.ge
    · omega
  rw [if_neg (by omega), ← hr]
  rfl

theorem Shard.seen_of_prev (hb : b ∈ D.blocks) (h1 : b.round ≠ 1)
    (hp : D.seen nr (D.prev b) = some hash) : D.seen nr b = some hash := by
  rw [hD.seen_eq hb, if_neg h1, hp]
  rfl

theorem Shard.prev_mem (hb : b ∈ D.blocks) (h1 : b.round ≠ 1) :
    D.prev b ∈ D.blocks ∧ (D.prev b).node = b.node ∧ (D.prev b).round + 1 = b.round := by
  rcases hD.prev b hb with ⟨h, _⟩ | h
  · exact absurd h h1
  · exact h

theorem Shard.chain_induction {P : BlockID → Prop}
    (hstep : ∀ b ∈ D.blocks, (b.round ≠ 1 → P (D.prev b)) → P b) :
    ∀ b ∈ D.blocks, P b := by
  intro b
  induction hr : b.round generalizing b with
  | zero =>
    intro hb
    refine hstep b hb ?_
    intro h1
    have := (hD.prev_mem hb h1).2.2
    omega
  | succ r ih =>
    intro hb
    refine hstep b hb ?_
    intro h1
    have hp := hD.prev_mem hb h1
    exact ih (D.prev b) (by omega) hp.1

/-- What a chain has come across is a block of the DAG. -/
theorem Shard.seen_mem : ∀ b ∈ D.blocks, D.seen nr b = some hash →
      (⟨hash, nr.node, nr.round⟩ : BlockID) ∈ D.blocks := by
  refine hD.chain_induction ?_
  intro b hb ih hs
  rw [hD.seen_eq hb] at hs
  rcases Option.or_eq_some_iff.mp hs with hs | ⟨_, hs⟩
  · split at hs
    · cases hs
    next h1 => exact ih h1 hs
  rcases List.mem_cons.mp (firstOf_eq_some hs) with heq | hdep
  · exact heq ▸ hb
  · exact (hD.deps b hb _ hdep).1

theorem Shard.seen_own (hb : b ∈ D.blocks) (hn : b.node = nr.node)
    (hr : b.round = nr.round) : D.seen nr b = some b.hash := by
  -- Up to the round before, the chain has no block of that round and refers to no own block.
  have hnone : ∀ a ∈ D.blocks, a.node = nr.node → a.round < nr.round → D.seen nr a = none := by
    refine hD.chain_induction ?_
    intro a ha ih hna hra
    rw [hD.seen_eq ha, Option.or_eq_none_iff]
    constructor
    · split
      · rfl
      next h1 =>
        have hp := hD.prev_mem ha h1
        exact ih h1 (by omega) (by omega)
    by_contra hsome
    obtain ⟨_, hsome⟩ := Option.ne_none_iff_exists'.mp hsome
    rcases List.mem_cons.mp (firstOf_eq_some hsome) with heq | hdep
    · have : nr.round = a.round := by rw [← heq]
      omega
    · exact (hD.deps a ha _ hdep).2 hna.symm
  rw [hD.seen_eq hb, firstOf_self hn hr]
  split
  · rfl
  next h1 =>
    have hp := hD.prev_mem hb h1
    rw [hnone _ hp.1 (by omega) (by omega)]
    rfl

/-- What a block of a node that does not equivocate has come across, its later blocks have. -/
theorem Shard.seen_later {a : BlockID} (ha : a ∈ D.blocks) (hh : ¬ D.Equivocates a.node)
    (hs : D.seen nr a = some hash) :
    ∀ b ∈ D.blocks, b.node = a.node → a.round ≤ b.round → D.seen nr b = some hash := by
  refine hD.chain_induction ?_
  intro b hb ih hn hle
  rcases Nat.eq_or_lt_of_le hle with heq | _
  · have hba : b = a := by
      by_contra hne
      exact hh ⟨b, hb, a, ha, hne, hn, rfl, .inl heq.symm⟩
    rw [hba]
    exact hs
  have hpos : 1 ≤ a.round := by
    rcases hD.prev a ha with _ | _ <;> omega
  have h1 : b.round ≠ 1 := by omega
  have hp := hD.prev_mem hb h1
  exact hD.seen_of_prev hb h1 (ih h1 (by omega) (by omega))

theorem Shard.votes_unique {x : Nat} (hx : ¬ D.Equivocates x)
    (hv : D.Votes nr x hash) (hv' : D.Votes nr x hash') : hash = hash' := by
  obtain ⟨a, ha, hna, hsa⟩ := hv
  obtain ⟨b, hb, hnb, hsb⟩ := hv'
  rcases Nat.le_total a.round b.round with hle | hle
  · have h := hD.seen_later ha (hna ▸ hx) hsa b hb (by omega) hle
    rw [h] at hsb
    injection hsb
  have h := hD.seen_later hb (hnb ▸ hx) hsb a ha (by omega) hle
  rw [h] at hsa
  injection hsa with hsa
  exact hsa.symm

/-- **At most one hash is backed.** -/
theorem Shard.backed_unique (hq : D.Backed nodes f nr hash)
    (hq' : D.Backed nodes f nr hash') : hash = hash' := by
  obtain ⟨Q, hQ, _, hvotes⟩ := hq
  obtain ⟨Q', hQ', _, hvotes'⟩ := hq'
  obtain ⟨F, _, hfaulty⟩ := hD.faulty
  have hU : nodes.toFinset.card ≤ 3 * f + 1 := hD.size ▸ List.toFinset_card_le nodes
  obtain ⟨x, hx, hx', hxF⟩ := exists_common_not_mem (F := F) hQ hQ' (by omega)
  exact hD.votes_unique (fun h => hxF (hfaulty x h)) (hvotes x hx) (hvotes' x hx')

theorem Shard.backed_mem (hq : D.Backed nodes f nr hash) :
    (⟨hash, nr.node, nr.round⟩ : BlockID) ∈ D.blocks := by
  obtain ⟨Q, _, _, hvotes⟩ := hq
  obtain ⟨x, hx⟩ := Finset.card_pos.mp (show 0 < Q.card by omega)
  obtain ⟨b, hb, _, hs⟩ := hvotes x hx
  exact hD.seen_mem b hb hs

/-- **`nr` can be decided with one hash only.** -/
theorem Shard.allowed_unique (ha : D.Allowed nodes f nr hash)
    (ha' : D.Allowed nodes f nr hash') : hash = hash' := by
  rcases ha.2 with hq | ⟨he, hnone⟩
  · rcases ha'.2 with hq' | ⟨_, hnone'⟩
    · exact hD.backed_unique hq hq'
    · exact absurd hq (hnone' hash)
  rcases ha'.2 with hq' | ⟨he', _⟩
  · exact absurd hq' (hnone hash')
  · rw [he, he']

end Shard

end Dag

end Chainspace.Blockmania
