/-
  Chainspace.Broadcast.Types — the messages of the broadcast service and its configuration.

  The types of `broadcast/types.proto` and `blockData` of `broadcast/depgraph.go`. The wire format
  and SHA-512/256 are parameters of which only is said that decoding inverts encoding. `uint64`
  values are natural numbers; where the arithmetic can wrap there is an explicit `% 2 ^ 64`.
-/
import Chainspace.Blockmania.Messages
import Mathlib.Data.List.Sort
import Mathlib.Algebra.Group.Nat.Defs

namespace Chainspace.Broadcast

open Chainspace.Lib Chainspace.Blockmania

/-- A Go `[]byte`. -/
abbrev Bytes := List UInt8

/-! ## §1. Messages (`types.proto`). -/

/-- `SignedData`: an encoded block or block reference. -/
structure SignedData where
  data : Bytes
  signature : Bytes
  deriving DecidableEq, Repr

def SignedData.size (s : SignedData) : Nat := s.data.length + s.signature.length + 100

structure Transactions where
  count : Nat
  data : Bytes
  deriving DecidableEq, Repr

/-- `Block`.  A sub-message that is absent is a nil pointer. -/
structure Block where
  node : Nat
  previous : Option SignedData
  references : List SignedData
  round : Nat
  transactions : Option Transactions
  deriving DecidableEq, Repr

structure BlockReference where
  hash : Hash
  node : Nat
  round : Nat
  deriving DecidableEq, Repr

def BlockReference.id (r : BlockReference) : BlockID := ⟨r.hash, r.node, r.round⟩

/-- `blockData`: what the dependency graph keeps of a block. -/
structure BlockData where
  deps : List BlockID
  id : BlockID
  prev : BlockID
  ref : SignedData
  deriving DecidableEq, Repr

/-! ## §2. The wire format. -/

/-- Protocol buffers and the digest of their encodings. -/
structure Wire where
  marshalBlock : Block → Bytes
  unmarshalBlock : Bytes → Option Block
  marshalRef : BlockReference → Bytes
  unmarshalRef : Bytes → Option BlockReference
  hash : Bytes → Hash
  unmarshal_marshalBlock : ∀ b, unmarshalBlock (marshalBlock b) = some b
  unmarshal_marshalRef : ∀ r, unmarshalRef (marshalRef r) = some r

def Wire.refOf (w : Wire) (data : Bytes) (node round : Nat) : BlockReference where
  hash := w.hash data
  node := node
  round := round

/-! ## §3. Keys and configuration. -/

/-- The signing keys of the network by node, with the signatures their owners make. -/
structure KeyRing where
  /-- `Verify` of the public key of a node -/
  verify : PMap Nat (Bytes → Bytes → Bool)
  /-- `Sign` of the key pair of a node -/
  sign : Nat → Bytes → Bytes
  verify_sign : ∀ node key, verify node = some key → ∀ data, key data (sign node data) = true

/-- The fields of `Service` that `New` sets. The node's key pair is the one the key map has for it,
and the peers are other nodes, each listed once. -/
structure Config where
  wire : Wire
  keys : KeyRing
  nodeID : Nat
  peers : List Nat
  maxBlocks : Nat
  maxPayload : Nat
  refSizeLimit : Nat
  txSizeLimit : Nat
  own_key : (keys.verify nodeID).isSome = true
  members_nodup : (nodeID :: peers).Nodup

/-- The members of the local shard, as `loadState` passes them to the graph. -/
def Config.nodes (c : Config) : List Nat := (c.nodeID :: c.peers).insertionSort (· ≤ ·)

theorem Config.mem_nodes (c : Config) (node : Nat) :
    node ∈ c.nodes ↔ node = c.nodeID ∨ node ∈ c.peers := by
  unfold Config.nodes
  rw [List.mem_insertionSort, List.mem_cons]

theorem Config.nodes_nodup (c : Config) : c.nodes.Nodup :=
  (List.perm_insertionSort _ _).nodup_iff.mpr c.members_nodup

/-! ## §4. A format and keys that meet the laws. -/

/-- A number, in unary. -/
def putNat (n : Nat) (rest : Bytes) : Bytes := List.replicate n 1 ++ 0 :: rest

def getNat : Bytes → Option (Nat × Bytes)
  | [] => none
  | b :: bs => if b = 0 then some (0, bs) else (getNat bs).map fun r => (r.1 + 1, r.2)

theorem getNat_putNat (n : Nat) (rest : Bytes) : getNat (putNat n rest) = some (n, rest) := by
  induction n with
  | zero => rfl
  | succ n ih =>
    show getNat (1 :: putNat n rest) = _
    simp [getNat, ih]

def putBytes (b : Bytes) (rest : Bytes) : Bytes := putNat b.length (b ++ rest)

def getBytes (bs : Bytes) : Option (Bytes × Bytes) :=
  (getNat bs).map fun r => (r.2.take r.1, r.2.drop r.1)

theorem getBytes_putBytes (b rest : Bytes) : getBytes (putBytes b rest) = some (b, rest) := by
  simp [getBytes, putBytes, getNat_putNat]

def putSigned (s : SignedData) (rest : Bytes) : Bytes :=
  putBytes s.data (putBytes s.signature rest)

def getSigned (bs : Bytes) : Option (SignedData × Bytes) := do
  let (data, bs) ← getBytes bs
  let (signature, bs) ← getBytes bs
  some (⟨data, signature⟩, bs)

theorem getSigned_putSigned (s : SignedData) (rest : Bytes) :
    getSigned (putSigned s rest) = some (s, rest) := by
  simp [getSigned, putSigned, getBytes_putBytes]

def getItems : Nat → Bytes → Option (List SignedData × Bytes)
  | 0, bs => some ([], bs)
  | n + 1, bs => do
      let (s, bs) ← getSigned bs
      let (ss, bs) ← getItems n bs
      some (s :: ss, bs)

theorem getItems_foldr (ss : List SignedData) (rest : Bytes) :
    getItems ss.length (ss.foldr putSigned rest) = some (ss, rest) := by
  induction ss with
  | nil => rfl
  | cons s ss ih => simp [getItems, getSigned_putSigned, ih]

def putList (ss : List SignedData) (rest : Bytes) : Bytes :=
  putNat ss.length (ss.foldr putSigned rest)

def getList (bs : Bytes) : Option (List SignedData × Bytes) := do
  let (n, bs) ← getNat bs
  getItems n bs

theorem getList_putList (ss : List SignedData) (rest : Bytes) :
    getList (putList ss rest) = some (ss, rest) := by
  simp [getList, putList, getNat_putNat, getItems_foldr]

/-- The transactions of a block; 0 stands for an absent message. -/
def putTransactions (t : Option Transactions) : Bytes :=
  match t with
  | none => putNat 0 []
  | some t => putNat 1 (putNat t.count (putBytes t.data []))

def getTransactions (bs : Bytes) : Option (Option Transactions) := do
  let (n, bs) ← getNat bs
  if n = 0 then some none
  else
    let (count, bs) ← getNat bs
    let (data, _) ← getBytes bs
    some (some ⟨count, data⟩)

theorem getTransactions_put (t : Option Transactions) :
    getTransactions (putTransactions t) = some t := by
  cases t with
  | none => rfl
  | some => simp [getTransactions, putTransactions, getNat_putNat, getBytes_putBytes]

/-- The fields one after the other. The digest is the encoding after 32 bytes, so that no two blocks
share one and none is shorter than one of SHA-512/256. -/
def plainWire : Wire where
  marshalBlock := fun b =>
    putNat b.node (putList b.previous.toList (putList b.references
      (putNat b.round (putTransactions b.transactions))))
  unmarshalBlock := fun bs => do
    let (node, bs) ← getNat bs
    let (previous, bs) ← getList bs
    let (references, bs) ← getList bs
    let (round, bs) ← getNat bs
    let transactions ← getTransactions bs
    some ⟨node, previous.head?, references, round, transactions⟩
  marshalRef := fun r => putBytes r.hash (putNat r.node (putNat r.round []))
  unmarshalRef := fun bs => do
    let (hash, bs) ← getBytes bs
    let (node, bs) ← getNat bs
    let (round, _) ← getNat bs
    some ⟨hash, node, round⟩
  hash := fun data => List.replicate 32 0 ++ data
  unmarshal_marshalBlock := by
    intro b
    have hprev : b.previous.toList.head? = b.previous := by cases b.previous <;> rfl
    simp [getNat_putNat, getList_putList, getTransactions_put, hprev]
  unmarshal_marshalRef := by
    intro r
    simp [getNat_putNat, getBytes_putBytes]

/-- Nodes 1 and 2 have keys; a signature is the number of the node before the data. -/
def pairKeys : KeyRing where
  verify := fun node =>
    if node = 1 ∨ node = 2 then some fun data sig => decide (sig = .ofNat node :: data) else none
  sign := fun node data => .ofNat node :: data
  verify_sign := by
    intro node key h data
    split at h
    · injection h with h
      simp [← h]
    · exact absurd h (by simp)

def pairConfig (nodeID : Nat) (peers : List Nat) (h : nodeID = 1 ∨ nodeID = 2)
    (hpeers : (nodeID :: peers).Nodup := by decide) : Config where
  wire := plainWire
  keys := pairKeys
  nodeID := nodeID
  peers := peers
  maxBlocks := 10
  maxPayload := 10000
  refSizeLimit := 10000
  txSizeLimit := 1000
  own_key := by
    show (if nodeID = 1 ∨ nodeID = 2 then _ else _ : Option (Bytes → Bytes → Bool)).isSome = true
    rw [if_pos h]
    rfl
  members_nodup := hpeers

def pairOne : Config := pairConfig 1 [2] (.inl rfl)

def loneOne : Config := pairConfig 1 [] (.inl rfl)

end Chainspace.Broadcast
