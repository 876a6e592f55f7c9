/-
  Chainspace.Network.Topology — which node belongs to which shard (`network/network.go`).

  Nodes are numbered from 1 and dealt out to the shards in turn: shard `s` holds the nodes `s, s +
  shardCount, s + 2 * shardCount, …`. An invalid shard ID ends the process (`none`).

  Node and shard IDs are natural numbers in the rest of the development. The second half of this
  module has the arithmetic of `uint64`, in which a product or a sum can wrap: as long as
  `shardCount * shardSize + shardCount` is below `2 ^ 64` (`Fits`) the two agree
  (`nodesInShard64_eq`), and shards partition the network (`shards_partition`).
-/
import Mathlib.Data.List.Nodup
import Mathlib.Algebra.Group.Nat.Defs

namespace Chainspace.Network

open List

/-- The fields of `Topology` that the assignment of nodes to shards reads. -/
structure Topology where
  shardCount : Nat
  shardSize : Nat
  deriving DecidableEq, Repr

namespace Topology

variable (t : Topology)

/-- `TotalNodes`; see `totalNodes64`. -/
def totalNodes : Nat := t.shardCount * t.shardSize

/-- The loop `for i := shardID; i <= total; i += shardCount`; there are at most `total` rounds. -/
def nodesFrom (step total : Nat) : Nat → Nat → List Nat
  | 0, _ => []
  | fuel + 1, i => if i ≤ total then i :: nodesFrom step total fuel (i + step) else []

/-- `NodesInShard`; see `nodesInShard64`. -/
def nodesInShard (shardID : Nat) : Option (List Nat) :=
  if shardID = 0 ∨ t.shardCount < shardID then none
  else some (nodesFrom t.shardCount t.totalNodes t.totalNodes shardID)

/-- `ShardForNode`; node IDs start at 1. -/
def shardForNode (nodeID : Nat) : Nat := (nodeID - 1) % t.shardCount + 1

/-! ## The nodes of a shard, listed. -/

/-- The loop that still has `k` nodes to add, from the right start, lists them. -/
theorem nodesFrom_eq (step total : Nat) :
    ∀ (k fuel i : Nat), k ≤ fuel → (∀ j < k, i + j * step ≤ total) → total < i + k * step →
      nodesFrom step total fuel i = (List.range k).map (fun j => i + j * step) := by
  intro k
  induction k with
  | zero =>
    intro fuel i _ _ hstop
    cases fuel with
    | zero => rfl
    | succ =>
      have hgt : ¬ i ≤ total := by omega
      rw [nodesFrom, if_neg hgt]
      rfl
  | succ k ih =>
    intro fuel i hfuel hin hstop
    obtain ⟨fuel, rfl⟩ : ∃ n, fuel = n + 1 := ⟨fuel - 1, by omega⟩
    have hfirst : i ≤ total := by
      have h0 := hin 0 (by omega)
      omega
    have hshift : ∀ j, i + step + j * step = i + (j + 1) * step := by
      intro j
      rw [Nat.succ_mul]
      omega
    rw [nodesFrom, if_pos hfirst, ih fuel (i + step) (by omega), range_succ_eq_map]
    · simp only [map_cons, map_map, Nat.zero_mul, Nat.add_zero]
      congr 1
      apply map_congr_left
      intro j _
      exact hshift j
    · intro j hj
      rw [hshift]
      exact hin (j + 1) (by omega)
    · rw [hshift]
      exact hstop

variable {shardID v : Nat} {nodes : List Nat}

theorem nodesFrom_shard {fuel : Nat} (hpos : 0 < shardID) (hle : shardID ≤ t.shardCount)
    (hfuel : t.shardSize ≤ fuel) : nodesFrom t.shardCount t.totalNodes fuel shardID =
      (List.range t.shardSize).map (fun j => shardID + j * t.shardCount) := by
  have htotal : t.totalNodes = t.shardSize * t.shardCount := Nat.mul_comm _ _
  apply nodesFrom_eq _ _ _ _ _ hfuel
  · intro j hj
    have hmul : (j + 1) * t.shardCount ≤ t.shardSize * t.shardCount :=
      Nat.mul_le_mul_right _ (by omega)
    rw [Nat.succ_mul] at hmul
    omega
  · omega

/-- **The nodes of a shard**: `shardSize` of them, `shardCount` apart. -/
theorem nodesInShard_eq (hpos : 0 < shardID) (hle : shardID ≤ t.shardCount) :
    t.nodesInShard shardID =
      some ((List.range t.shardSize).map (fun j => shardID + j * t.shardCount)) := by
  have hfuel : t.shardSize ≤ t.totalNodes := Nat.le_mul_of_pos_left _ (by omega)
  rw [nodesInShard, if_neg (by omega), t.nodesFrom_shard hpos hle hfuel]

theorem nodesInShard_valid {t : Topology}
    (h : t.nodesInShard shardID = some nodes) : 0 < shardID ∧ shardID ≤ t.shardCount := by
  unfold nodesInShard at h
  split at h
  · cases h
  next => omega

section
variable (hpos : 0 < shardID) (hle : shardID ≤ t.shardCount)
  (h : t.nodesInShard shardID = some nodes)
include hpos hle h

theorem nodesInShard_nodup : nodes.Nodup := by
  rw [t.nodesInShard_eq hpos hle] at h
  cases h
  refine List.Nodup.map ?_ nodup_range
  intro i j hij
  have hmul : i * t.shardCount = j * t.shardCount := Nat.add_left_cancel hij
  exact Nat.eq_of_mul_eq_mul_right (by omega) hmul

theorem nodesInShard_length : nodes.length = t.shardSize := by
  rw [t.nodesInShard_eq hpos hle] at h
  injection h with h
  rw [← h, length_map, length_range]

theorem shardForNode_of_mem (hv : v ∈ nodes) : t.shardForNode v = shardID := by
  rw [t.nodesInShard_eq hpos hle] at h
  cases h
  obtain ⟨j, -, rfl⟩ := mem_map.mp hv
  have hsub : shardID + j * t.shardCount - 1 = (shardID - 1) + j * t.shardCount := by omega
  rw [shardForNode, hsub, Nat.add_mul_mod_self_right, Nat.mod_eq_of_lt (by omega)]
  omega

end

/-! ## The same in the arithmetic of `uint64`. -/

/-- `TotalNodes`, where the product wraps. -/
def totalNodes64 : Nat := t.shardCount * t.shardSize % 2 ^ 64

/-- The loop of `NodesInShard`, where the sum wraps; `none` if it is not over in time. -/
def nodesFrom64 (step total : Nat) : Nat → Nat → Option (List Nat)
  | 0, _ => none
  | fuel + 1, i =>
    if i ≤ total then (nodesFrom64 step total fuel ((i + step) % 2 ^ 64)).map (i :: ·)
    else some []

/-- `NodesInShard`, with `fuel` rounds of its loop. -/
def nodesInShard64 (fuel shardID : Nat) : Option (List Nat) :=
  if shardID = 0 ∨ t.shardCount < shardID then none
  else nodesFrom64 t.shardCount t.totalNodes64 fuel shardID

/-- `ShardForNode`, where the difference wraps. -/
def shardForNode64 (nodeID : Nat) : Nat :=
  ((nodeID + 2 ^ 64 - 1) % 2 ^ 64 % t.shardCount + 1) % 2 ^ 64

/-- `ShardForVersionID`; `sum64` is the keyed hash. -/
def shardForVersionID64 (sum64 : List UInt8 → UInt64) (key : List UInt8) : Nat :=
  ((sum64 key).toNat % t.shardCount + 1) % 2 ^ 64

theorem nodesFrom64_eq {step total : Nat} (hfit : total + step < 2 ^ 64) {fuel i : Nat}
    (hfuel : (nodesFrom step total fuel i).length < fuel) :
    nodesFrom64 step total fuel i = some (nodesFrom step total fuel i) := by
  induction fuel generalizing i with
  | zero => omega
  | succ fuel ih =>
    unfold nodesFrom64 nodesFrom
    unfold nodesFrom at hfuel
    split
    next hle =>
      rw [if_pos hle, length_cons] at hfuel
      rw [Nat.mod_eq_of_lt (by omega), ih (by omega)]
      rfl
    · rfl

/-- No product or sum of the loop over the nodes of a shard wraps. -/
def Fits : Prop := t.shardCount * t.shardSize + t.shardCount < 2 ^ 64

/-- **Below the bound the loop of the code lists the nodes of a shard**, given enough rounds. -/
theorem nodesInShard64_eq (hfit : t.Fits) {fuel : Nat} (hfuel : t.shardSize < fuel)
    (hpos : 0 < shardID) (hle : shardID ≤ t.shardCount) :
    t.nodesInShard64 fuel shardID = t.nodesInShard shardID := by
  have hfit : t.shardCount * t.shardSize + t.shardCount < 2 ^ 64 := hfit
  have htotal : t.totalNodes64 = t.totalNodes := Nat.mod_eq_of_lt (by omega)
  have hfrom := t.nodesFrom_shard hpos hle (Nat.le_of_lt hfuel)
  have hloop : nodesFrom64 t.shardCount t.totalNodes fuel shardID =
      some (nodesFrom t.shardCount t.totalNodes fuel shardID) := by
    apply nodesFrom64_eq
    · exact hfit
    · rw [hfrom, length_map, length_range]
      exact hfuel
  unfold nodesInShard64
  rw [if_neg (by omega), htotal, hloop, hfrom, t.nodesInShard_eq hpos hle]

/-- The nodes of a valid shard. -/
def nodesOf (shardID : Nat) : List Nat := (t.nodesInShard shardID).getD []

theorem mem_nodesOf (hpos : 0 < shardID) (hle : shardID ≤ t.shardCount) :
    v ∈ t.nodesOf shardID ↔ ∃ j < t.shardSize, shardID + j * t.shardCount = v := by
  rw [nodesOf, t.nodesInShard_eq hpos hle, Option.getD_some, mem_map]
  simp only [mem_range]

theorem mem_nodesOf_iff (hpos : 0 < shardID) (hle : shardID ≤ t.shardCount) :
    v ∈ t.nodesOf shardID ↔ 1 ≤ v ∧ v ≤ t.totalNodes ∧ t.shardForNode v = shardID := by
  have htotal : t.totalNodes = t.shardSize * t.shardCount := Nat.mul_comm _ _
  constructor
  · intro hv
    have hshard : t.shardForNode v = shardID :=
      t.shardForNode_of_mem hpos hle (t.nodesInShard_eq hpos hle)
        (by rwa [nodesOf, t.nodesInShard_eq hpos hle] at hv)
    obtain ⟨j, _⟩ := (t.mem_nodesOf hpos hle).mp hv
    have hmul : (j + 1) * t.shardCount ≤ t.shardSize * t.shardCount :=
      Nat.mul_le_mul_right _ (by omega)
    rw [Nat.succ_mul] at hmul
    exact ⟨by omega, by omega, hshard⟩
  rintro ⟨_, _, hshard⟩
  -- the row of the node in the deal
  have hdiv := Nat.div_add_mod (v - 1) t.shardCount
  refine (t.mem_nodesOf hpos hle).mpr ⟨(v - 1) / t.shardCount, ?_, ?_⟩
  · rw [Nat.div_lt_iff_lt_mul (by omega)]
    omega
  rw [Nat.mul_comm]
  unfold shardForNode at hshard
  omega

/-- **Shards partition the network**, in the arithmetic of the code: every shard has `shardSize`
nodes in increasing order, every node is in the one shard `ShardForNode` gives, and every key has a
shard. -/
theorem shards_partition (t : Topology) (hcount : 1 ≤ t.shardCount)
    (hfit : t.shardCount * t.shardSize + t.shardCount < 2 ^ 64) :
    (∀ s, 1 ≤ s → s ≤ t.shardCount →
      (∀ fuel, t.shardSize < fuel → t.nodesInShard64 fuel s = some (t.nodesOf s)) ∧
        (t.nodesOf s).Pairwise (· < ·) ∧ (t.nodesOf s).length = t.shardSize ∧
        (∀ s', 1 ≤ s' → s' ≤ t.shardCount → s ≠ s' → (t.nodesOf s).Disjoint (t.nodesOf s')) ∧
        ∀ v, 1 ≤ v → v ≤ t.totalNodes64 → (t.shardForNode64 v = s ↔ v ∈ t.nodesOf s)) ∧
      (∀ v, (∃ s, 1 ≤ s ∧ s ≤ t.shardCount ∧ v ∈ t.nodesOf s) ↔ 1 ≤ v ∧ v ≤ t.totalNodes64) ∧
      ∀ sum64 key, 1 ≤ t.shardForVersionID64 sum64 key ∧
        t.shardForVersionID64 sum64 key ≤ t.shardCount := by
  have htotal : t.totalNodes64 = t.totalNodes := Nat.mod_eq_of_lt (by omega)
  have hrange : ∀ n, n % t.shardCount < t.shardCount := fun n => Nat.mod_lt n hcount
  have hnode : ∀ v, 1 ≤ v → v ≤ t.totalNodes → t.shardForNode64 v = t.shardForNode v := by
    intro v hv hvle
    have hlt := hrange (v - 1)
    unfold totalNodes at hvle
    unfold shardForNode64 shardForNode
    rw [show (v + 2 ^ 64 - 1) % 2 ^ 64 = v - 1 by omega]
    exact Nat.mod_eq_of_lt (by omega)
  refine ⟨?_, ?_, ?_⟩
  · intro s hs hsle
    have hnodes : t.nodesOf s = (List.range t.shardSize).map (fun j => s + j * t.shardCount) := by
      rw [nodesOf, t.nodesInShard_eq hs hsle, Option.getD_some]
    refine ⟨?_, ?_, ?_, ?_, ?_⟩
    · intro fuel hfuel
      rw [t.nodesInShard64_eq hfit hfuel hs hsle, t.nodesInShard_eq hs hsle, hnodes]
    · rw [hnodes, pairwise_map]
      refine pairwise_lt_range.imp ?_
      intro i j hij
      exact Nat.add_lt_add_left (Nat.mul_lt_mul_of_pos_right hij hcount) s
    · rw [hnodes, length_map, length_range]
    · intro s' hs' hsle' hne v hv hv'
      have h := ((t.mem_nodesOf_iff hs hsle).mp hv).2.2
      have h' := ((t.mem_nodesOf_iff hs' hsle').mp hv').2.2
      exact hne (h.symm.trans h')
    · intro v hv hvle
      rw [htotal] at hvle
      rw [hnode v hv hvle, t.mem_nodesOf_iff hs hsle]
      exact ⟨fun h => ⟨hv, hvle, h⟩, fun h => h.2.2⟩
  · intro v
    rw [htotal]
    constructor
    · rintro ⟨s, hs, hsle, hv⟩
      obtain ⟨hv, hvle, _⟩ := (t.mem_nodesOf_iff hs hsle).mp hv
      exact ⟨hv, hvle⟩
    rintro ⟨hv, hvle⟩
    have hlt := hrange (v - 1)
    refine ⟨t.shardForNode v, by unfold shardForNode; omega, by unfold shardForNode; omega, ?_⟩
    rw [t.mem_nodesOf_iff (by unfold shardForNode; omega) (by unfold shardForNode; omega)]
    exact ⟨hv, hvle, rfl⟩
  · intro sum64 key
    have hlt := hrange (sum64 key).toNat
    unfold shardForVersionID64
    omega

/-- Two shards of two nodes. -/
theorem shards_partition_two : (Topology.mk 2 2).nodesInShard64 3 2 = some [2, 4] :=
  ((shards_partition ⟨2, 2⟩ (by decide) (by decide)).1 2 (by decide) (by decide)).1 3 (by decide)

end Topology

end Chainspace.Network
