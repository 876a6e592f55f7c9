/-
  Chainspace.Blockmania.Messages — block identifiers, protocol messages and state keys.

  The types of `blockmania/blockmania.go`, `blockmania/messages/` and `blockmania/states/`.
  A Go `string` that holds a digest is its list of bytes; the empty list is the empty string,
  which the protocol uses for "no block".  `uint64` and `uint32` values are natural numbers: the
  places where the code's arithmetic can wrap carry an explicit `% 2 ^ w`.
-/
import Chainspace.Lib.PartialMap

namespace Chainspace.Blockmania

/-- The bytes of a Go string that holds a block digest. -/
abbrev Hash := List UInt8

/-- Decide a proposition by a Boolean test. Keys compare this way, numbers before digests, so that
lookups evaluate fast. -/
def decideBy {p : Prop} (test : Bool) (h : test = true ↔ p) : Decidable p :=
  match test, h with
  | true, h => isTrue (h.mp rfl)
  | false, h => isFalse (fun hp => absurd (h.mpr hp) (by simp))

/-! ## §1. Blocks (`blockmania.go`). -/

/-- A specific block of a node, usable as a map key. -/
structure BlockID where
  hash : Hash
  node : Nat
  round : Nat
  deriving Repr

instance : DecidableEq BlockID := fun a b =>
  decideBy (a.round.beq b.round && a.node.beq b.node && decide (a.hash = b.hash))
    (by cases a; cases b; simp [and_assoc, and_comm])

def BlockID.zero : BlockID := ⟨[], 0, 0⟩

def BlockID.valid (b : BlockID) : Bool := b.hash ≠ []

/-- A direct dependency of a block generated by a node. -/
structure Dep where
  block : BlockID
  deps : List BlockID
  prev : BlockID
  deriving DecidableEq, Repr

/-- A block generated by a node and its dependencies. -/
structure BlockGraph where
  block : BlockID
  deps : List Dep
  prev : BlockID
  deriving DecidableEq, Repr

/-- The result of interpreting a graph for one round. -/
structure Interpreted where
  blocks : List BlockID
  consumed : Nat
  round : Nat
  deriving DecidableEq, Repr

/-! ## §2. Messages (`messages/`). -/

structure PrePrepare where
  hash : Hash
  node : Nat
  round : Nat
  view : Nat
  deriving Repr

instance : DecidableEq PrePrepare := fun a b =>
  decideBy
    (a.round.beq b.round && a.node.beq b.node && a.view.beq b.view && decide (a.hash = b.hash))
    (by cases a; cases b; simp [and_assoc, and_comm])

structure Prepare where
  hash : Hash
  node : Nat
  round : Nat
  sender : Nat
  view : Nat
  deriving Repr

instance : DecidableEq Prepare := fun a b =>
  decideBy (a.round.beq b.round && a.node.beq b.node && a.sender.beq b.sender &&
    a.view.beq b.view && decide (a.hash = b.hash))
    (by cases a; cases b; simp [and_assoc, and_comm])

def Prepare.pre (p : Prepare) : PrePrepare := ⟨p.hash, p.node, p.round, p.view⟩

structure Commit where
  hash : Hash
  node : Nat
  round : Nat
  sender : Nat
  view : Nat
  deriving Repr

instance : DecidableEq Commit := fun a b =>
  decideBy (a.round.beq b.round && a.node.beq b.node && a.sender.beq b.sender &&
    a.view.beq b.view && decide (a.hash = b.hash))
    (by cases a; cases b; simp [and_assoc, and_comm])

def Commit.pre (c : Commit) : PrePrepare := ⟨c.hash, c.node, c.round, c.view⟩

structure ViewChange where
  hash : Hash
  node : Nat
  round : Nat
  sender : Nat
  view : Nat
  deriving Repr

instance : DecidableEq ViewChange := fun a b =>
  decideBy (a.round.beq b.round && a.node.beq b.node && a.sender.beq b.sender &&
    a.view.beq b.view && decide (a.hash = b.hash))
    (by cases a; cases b; simp [and_assoc, and_comm])

structure NewView where
  hash : Hash
  node : Nat
  round : Nat
  sender : Nat
  view : Nat
  deriving Repr

instance : DecidableEq NewView := fun a b =>
  decideBy (a.round.beq b.round && a.node.beq b.node && a.sender.beq b.sender &&
    a.view.beq b.view && decide (a.hash = b.hash))
    (by cases a; cases b; simp [and_assoc, and_comm])

/-- The values of the Go interface `messages.Message`. -/
inductive Message where
  | prePrepare (m : PrePrepare)
  | prepare (m : Prepare)
  | commit (m : Commit)
  | viewChange (m : ViewChange)
  | newView (m : NewView)
  deriving DecidableEq, Repr

namespace Message

/-- First component of `NodeRound`: the node whose block the message is about. -/
@[simp] def node : Message → Nat
  | prePrepare m => m.node
  | prepare m => m.node
  | commit m => m.node
  | viewChange m => m.node
  | newView m => m.node

/-- Second component of `NodeRound`: the round the message is about. -/
@[simp] def round : Message → Nat
  | prePrepare m => m.round
  | prepare m => m.round
  | commit m => m.round
  | viewChange m => m.round
  | newView m => m.round

@[simp] def hash : Message → Hash
  | prePrepare m => m.hash
  | prepare m => m.hash
  | commit m => m.hash
  | viewChange m => m.hash
  | newView m => m.hash

/-- The view the message is of. -/
@[simp] def view : Message → Nat
  | prePrepare m => m.view
  | prepare m => m.view
  | commit m => m.view
  | viewChange m => m.view
  | newView m => m.view

end Message

/-! ## §3. State keys (`states/`).

The keys of the Go map `stateKV` are structs of six types.  `Final` and `View` name a node and
a round; `HNV`, `PrePrepared`, `Prepared` and `ViewChanged` name a view as well. -/

/-- The fields of the keys `states.Final` and `states.View`, and of `nodeRound`. -/
structure NodeRound where
  node : Nat
  round : Nat
  deriving Repr

instance : DecidableEq NodeRound := fun a b =>
  decideBy (a.round.beq b.round && a.node.beq b.node)
    (by cases a; cases b; simp [and_comm])

/-- The fields of the keys `states.HNV`, `PrePrepared`, `Prepared` and `ViewChanged`. -/
structure NodeRoundView where
  node : Nat
  round : Nat
  view : Nat
  deriving Repr

instance : DecidableEq NodeRoundView := fun a b =>
  decideBy (a.round.beq b.round && a.node.beq b.node && a.view.beq b.view)
    (by cases a; cases b; simp [and_assoc, and_comm])

def Message.nodeRound (m : Message) : NodeRound := ⟨m.node, m.round⟩

end Chainspace.Blockmania
