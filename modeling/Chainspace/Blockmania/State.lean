/-
  Chainspace.Blockmania.State — the per-block state of `blockmania/state.go`.

  `clone` copies the vote sets by value, but a `ViewChanged` value is a Go map and a `timeouts`
  value a Go slice: both are copied BY REFERENCE. The model keeps a `Heap` with the map objects and
  the backing arrays, addressed by the key they were allocated for and an allocation number: two
  keys of one state never share an object, while a state and its clones do. The Go map `stateKV` has
  keys of six struct types; it is one partial map for each.
-/
import Chainspace.Blockmania.Messages
import Chainspace.Blockmania.Bitset
import Mathlib.Data.List.AList

namespace Chainspace.Blockmania

open Chainspace.Lib

/-! ## §1. The heap behind the references. -/

/-- A pending view timeout. -/
structure Timeout where
  node : Nat
  round : Nat
  view : Nat
  deriving DecidableEq, Repr

/-- The Go map stored under a `ViewChanged` key: the hash each sender reported. -/
abbrev VcMap := AList (fun _ : Nat => Hash)

/-- A Go slice: backing array, length and capacity. All zero is the nil slice. -/
structure Slice where
  arr : Nat
  len : Nat
  cap : Nat
  deriving DecidableEq, Repr

def Slice.nil : Slice := ⟨0, 0, 0⟩

/-- What states reach through references: the maps of the `ViewChanged` keys and the cells of the
backing arrays of the `timeouts` slices. -/
structure Heap where
  vcs : NodeRoundView → Nat → VcMap
  cells : Nat → Nat → Nat → Timeout
  next : Nat

namespace Heap

def empty : Heap := ⟨fun _ _ => ∅, fun _ _ _ => ⟨0, 0, 0⟩, 0⟩

def setVcs (h : Heap) (k : NodeRoundView) (i : Nat) (m : VcMap) : Heap :=
  { h with vcs := fun k' i' => if i' = i ∧ k' = k then m else h.vcs k' i' }

def setCell (h : Heap) (k a j : Nat) (t : Timeout) : Heap :=
  { h with cells := fun k' a' j' => if a' = a ∧ j' = j ∧ k' = k then t else h.cells k' a' j' }

def read (h : Heap) (k : Nat) (s : Slice) : List Timeout :=
  (List.range s.len).map (h.cells k s.arr)

/-- `append(s, t)` for a slice held under key `k`. With spare capacity the element goes into the
SHARED backing array; otherwise the elements move to a fresh one of the capacity the runtime picks
(`grow`). -/
def append (grow : Nat → Nat) (h : Heap) (k : Nat) (s : Slice) (t : Timeout) : Heap × Slice :=
  if s.len < s.cap then (h.setCell k s.arr s.len t, { s with len := s.len + 1 })
  else
    ({ h with
        cells := fun k' a' j' =>
          if a' = h.next ∧ k' = k then (if j' = s.len then t else h.cells k s.arr j')
          else h.cells k' a' j',
        next := h.next + 1 },
      ⟨h.next, s.len + 1, max (s.len + 1) (grow s.len)⟩)

end Heap

/-! ## §2. The state record. -/

/-- The Go map `stateKV`, one partial map for each type of key. A `ViewChanged` key has the number
of a map on the heap. -/
structure StateKV where
  final : PMap NodeRound Unit
  hnv : PMap NodeRoundView Bool
  prepared : PMap NodeRoundView Hash
  prePrepared : PMap NodeRoundView PrePrepare
  view : PMap NodeRound Nat
  viewChanged : PMap NodeRoundView Nat

/-- The state a graph keeps for a block. -/
structure State where
  bitsets : PMap PrePrepare Bitset
  data : StateKV
  delay : AList (fun _ : Nat => Nat)
  final : PMap NodeRound Hash
  out : List Message
  timeout : Nat
  timeouts : Nat → Slice

def StateKV.empty : StateKV :=
  ⟨.empty, .empty, .empty, .empty, .empty, .empty⟩

/-- `&state{timeouts: map[uint64][]timeout{}}`. -/
def State.empty : State :=
  ⟨.empty, .empty, ∅, .empty, [], 0, fun _ => .nil⟩

/-- The entries of `data` that `clone` keeps: those of rounds from `minround` on. -/
def StateKV.prune (d : StateKV) (minround : Nat) : StateKV where
  final := d.final.restrict (fun k => minround.ble k.round)
  hnv := d.hnv.restrict (fun k => minround.ble k.round)
  prepared := d.prepared.restrict (fun k => minround.ble k.round)
  prePrepared := d.prePrepared.restrict (fun k => minround.ble k.round)
  view := d.view.restrict (fun k => minround.ble k.round)
  viewChanged := d.viewChanged.restrict (fun k => minround.ble k.round)

/-- `clone`: the state of the next block of a chain, with the references in `data.viewChanged` and
`timeouts` as they are. -/
def clone (s : Option State) (minround : Nat) : State :=
  match s with
  | none => State.empty
  | some s =>
    { bitsets := s.bitsets.restrict (fun k => minround.ble k.round)
      data := s.data.prune minround
      delay := s.delay
      final := s.final.restrict (fun k => minround.ble k.round)
      out := s.out.filter (fun m => minround ≤ m.round)
      timeout := s.timeout
      timeouts := fun k => if k < minround then .nil else s.timeouts k }

namespace State

/-- `getBitset`: the vote set of a proposal, a new one if there is none. -/
def getBitset (s : State) (size : Nat) (pp : PrePrepare) : Bitset :=
  (s.bitsets pp).getD (newBitset size)

/-- Store the vote set of a proposal (the Go code updates it through its pointer). -/
def putBitset (s : State) (pp : PrePrepare) (b : Bitset) : State :=
  { s with bitsets := s.bitsets.set pp b }

/-- The view recorded for a node and round, 0 if there is none. -/
def viewOf (s : State) (k : NodeRound) : Nat := (s.data.view k).getD 0

def putView (s : State) (k : NodeRound) (v : Nat) : State :=
  { s with data := { s.data with view := s.data.view.set k v } }

/-- `getView`: the recorded view; a missing entry is created with view 0. -/
def getView (s : State) (k : NodeRound) : Nat × State :=
  match s.data.view k with
  | some v => (v, s)
  | none => (0, s.putView k 0)

end State

def getOutput (s : Option State) : List Message :=
  match s with
  | none => []
  | some s => s.out

theorem mem_getOutput {s : Option State} {m : Message} (h : m ∈ getOutput s) :
    ∃ s', s = some s' ∧ m ∈ s'.out := by
  cases s with
  | none => exact absurd h (by simp [getOutput])
  | some s' => exact ⟨s', rfl, h⟩

def diff (a b : Nat) : Nat := if b ≤ a then a - b else b - a

/-! ## §3. How the record operations act on the fields. -/

namespace State

section Fields
variable (s : State) (pp : PrePrepare) (b : Bitset) (k : NodeRound) (v : Nat)

@[simp] theorem putBitset_bitsets : (s.putBitset pp b).bitsets = s.bitsets.set pp b := rfl
@[simp] theorem putBitset_data : (s.putBitset pp b).data = s.data := rfl
@[simp] theorem putBitset_delay : (s.putBitset pp b).delay = s.delay := rfl
@[simp] theorem putBitset_final : (s.putBitset pp b).final = s.final := rfl
@[simp] theorem putBitset_timeout : (s.putBitset pp b).timeout = s.timeout := rfl
@[simp] theorem putBitset_timeouts : (s.putBitset pp b).timeouts = s.timeouts := rfl
@[simp] theorem putView_bitsets : (s.putView k v).bitsets = s.bitsets := rfl
@[simp] theorem putView_view : (s.putView k v).data.view = s.data.view.set k v := rfl
@[simp] theorem putView_hnv : (s.putView k v).data.hnv = s.data.hnv := rfl
@[simp] theorem putView_prepared : (s.putView k v).data.prepared = s.data.prepared := rfl
@[simp] theorem putView_prePrepared : (s.putView k v).data.prePrepared = s.data.prePrepared := rfl
@[simp] theorem putView_viewChanged : (s.putView k v).data.viewChanged = s.data.viewChanged := rfl
@[simp] theorem putView_dataFinal : (s.putView k v).data.final = s.data.final := rfl
@[simp] theorem putView_delay : (s.putView k v).delay = s.delay := rfl
@[simp] theorem putView_final : (s.putView k v).final = s.final := rfl
@[simp] theorem putView_timeout : (s.putView k v).timeout = s.timeout := rfl
@[simp] theorem putView_timeouts : (s.putView k v).timeouts = s.timeouts := rfl

end Fields

/-- The state after `getView`: the view of `k` is recorded. -/
def touch (s : State) (k : NodeRound) : State := (s.getView k).2

theorem getView_eq (s : State) (k : NodeRound) : s.getView k = (s.viewOf k, s.touch k) := by
  unfold touch getView viewOf
  cases s.data.view k <;> rfl

theorem viewOf_putView (s : State) (k k' : NodeRound) (v : Nat) :
    (s.putView k v).viewOf k' = if k' = k then v else s.viewOf k' := by
  unfold viewOf
  by_cases h : k' = k <;> simp [h]

section Touch
variable (s : State) (k : NodeRound)

theorem touch_eq : s.touch k = s.putView k (s.viewOf k) := by
  unfold touch getView viewOf
  cases h : s.data.view k with
  | none => rfl
  | some v =>
    have hset : s.data.view.set k v = s.data.view := by
      funext k'
      rw [PMap.set_apply]
      split
      next hk => rw [hk, h]
      next => rfl
    show s = { s with data := { s.data with view := s.data.view.set k v } }
    rw [hset]

@[simp] theorem touch_bitsets : (s.touch k).bitsets = s.bitsets := by rw [touch_eq]; rfl
@[simp] theorem touch_hnv : (s.touch k).data.hnv = s.data.hnv := by rw [touch_eq]; rfl
@[simp] theorem touch_prepared : (s.touch k).data.prepared = s.data.prepared := by
  rw [touch_eq]; rfl
@[simp] theorem touch_prePrepared : (s.touch k).data.prePrepared = s.data.prePrepared := by
  rw [touch_eq]; rfl
@[simp] theorem touch_viewChanged : (s.touch k).data.viewChanged = s.data.viewChanged := by
  rw [touch_eq]; rfl
@[simp] theorem touch_dataFinal : (s.touch k).data.final = s.data.final := by rw [touch_eq]; rfl
@[simp] theorem touch_delay : (s.touch k).delay = s.delay := by rw [touch_eq]; rfl
@[simp] theorem touch_final : (s.touch k).final = s.final := by rw [touch_eq]; rfl
@[simp] theorem touch_timeout : (s.touch k).timeout = s.timeout := by rw [touch_eq]; rfl
@[simp] theorem touch_timeouts : (s.touch k).timeouts = s.timeouts := by rw [touch_eq]; rfl

@[simp] theorem touch_viewOf (k' : NodeRound) : (s.touch k).viewOf k' = s.viewOf k' := by
  rw [touch_eq, viewOf_putView]
  split
  next hk => rw [hk]
  next => rfl

theorem touch_view (k' : NodeRound) :
    (s.touch k).data.view k' = if k' = k then some (s.viewOf k) else s.data.view k' := by
  rw [touch_eq, putView_view, PMap.set_apply]

end Touch

@[simp] theorem viewOf_putBitset (s : State) (pp : PrePrepare) (b : Bitset) (k : NodeRound) :
    (s.putBitset pp b).viewOf k = s.viewOf k := rfl

end State

/-! ## §4. What a clone keeps. -/

section Clone
variable {s : State} {minround : Nat}

theorem clone_bitsets {pp : PrePrepare} (h : minround ≤ pp.round) :
    (clone (some s) minround).bitsets pp = s.bitsets pp :=
  PMap.restrict_pos (p := fun k => minround.ble k.round) s.bitsets (Nat.ble_eq.mpr h)

section
variable {k : NodeRoundView} (h : minround ≤ k.round)
include h

theorem clone_hnv :
    (clone (some s) minround).data.hnv k = s.data.hnv k :=
  PMap.restrict_pos (p := fun k => minround.ble k.round) s.data.hnv (Nat.ble_eq.mpr h)

theorem clone_prepared :
    (clone (some s) minround).data.prepared k = s.data.prepared k :=
  PMap.restrict_pos (p := fun k => minround.ble k.round) s.data.prepared (Nat.ble_eq.mpr h)

theorem clone_prePrepared :
    (clone (some s) minround).data.prePrepared k = s.data.prePrepared k :=
  PMap.restrict_pos (p := fun k => minround.ble k.round) s.data.prePrepared (Nat.ble_eq.mpr h)

theorem clone_viewChanged :
    (clone (some s) minround).data.viewChanged k = s.data.viewChanged k :=
  PMap.restrict_pos (p := fun k => minround.ble k.round) s.data.viewChanged (Nat.ble_eq.mpr h)

end

theorem clone_viewOf {k : NodeRound} (h : minround ≤ k.round) :
    (clone (some s) minround).viewOf k = s.viewOf k :=
  congrArg (·.getD 0)
    (PMap.restrict_pos (p := fun k => minround.ble k.round) s.data.view (Nat.ble_eq.mpr h))

theorem clone_final {k : NodeRound} (h : minround ≤ k.round) :
    (clone (some s) minround).final k = s.final k :=
  PMap.restrict_pos (p := fun k => minround.ble k.round) s.final (Nat.ble_eq.mpr h)

end Clone

end Chainspace.Blockmania
