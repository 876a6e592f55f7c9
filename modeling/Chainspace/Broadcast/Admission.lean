/-
  Chainspace.Broadcast.Admission — which blocks a node admits.

  The checks of `Service.processBlock` (`broadcast/broadcast.go`), with the data of its error
  messages, and `getBlockData` (`broadcast/store.go`), which reads an admitted block back without
  the checks.
-/
import Chainspace.Lib.Loop
import Chainspace.Broadcast.Types

namespace Chainspace.Broadcast

open Chainspace.Lib Chainspace.Blockmania

/-! ## §1. The checks. -/

/-- The errors `processBlock` returns. -/
inductive BlockError
  /-- an error of the decoder, with a text of its own -/
  | decoding
  | noKey (node : Nat)
  | invalidSignature (round node : Nat)
  | nilPrevious (round node : Nat)
  | invalidPreviousSignature (round node : Nat)
  | previousNode (round node : Nat)
  | previousRound (round node : Nat)
  | invalidReference (i round node : Nat)
  | noReferenceKey (refNode i round node : Nat)
  | invalidReferenceSignature (i round node : Nat)
  | sameNode (i round node : Nat)
  deriving DecidableEq, Repr

def BlockError.text : BlockError → String
  | decoding => ""
  | noKey node => s!"broadcast: unable to find signing.key for node {node}"
  | invalidSignature round node =>
    s!"broadcast: unable to verify signature for block {round} from node {node}"
  | nilPrevious round node => s!"broadcast: nil previous block on block {round} from node {node}"
  | invalidPreviousSignature round node =>
    s!"broadcast: unable to verify signature for previous block on block {round} from node {node}"
  | previousNode round node =>
    s!"broadcast: previous block node does not match on block {round} from node {node}"
  | previousRound round node =>
    s!"broadcast: previous block round is invalid on block {round} from node {node}"
  | invalidReference i round node =>
    s!"broadcast: unable to decode block reference at position {i} for block {round} from node " ++
      s!"{node}"
  | noReferenceKey refNode i round node =>
    s!"broadcast: unable to find signing.key for node {refNode} in block reference {i} " ++
      s!"for block {round} from node {node}"
  | invalidReferenceSignature i round node =>
    s!"broadcast: unable to verify signature for block reference {i} " ++
      s!"for block {round} from node {node}"
  | sameNode i round node =>
    s!"broadcast: block references includes a block from same node in block reference {i} " ++
      s!"for block {round} from node {node}"

section Checks
variable (c : Config)

/-- The previous block of a block; `key` is that of the author. -/
def checkPrevious (key : Bytes → Bytes → Bool) (block : Block) : Except BlockError BlockID :=
  if block.round = 1 then .ok .zero
  else
    match block.previous with
    | none => .error (.nilPrevious block.round block.node)
    | some previous =>
      if key previous.data previous.signature = false then
        .error (.invalidPreviousSignature block.round block.node)
      else
        match c.wire.unmarshalRef previous.data with
        | none => .error .decoding
        | some prev =>
          if prev.node ≠ block.node then .error (.previousNode block.round block.node)
          else if (prev.round + 1) % 2 ^ 64 ≠ block.round then
            .error (.previousRound block.round block.node)
          else .ok prev.id

def checkReference (block : Block) (i : Nat) (sref : SignedData) : Except BlockError BlockID :=
  match c.wire.unmarshalRef sref.data with
  | none => .error (.invalidReference i block.round block.node)
  | some ref =>
    match c.keys.verify ref.node with
    | none => .error (.noReferenceKey ref.node i block.round block.node)
    | some key =>
      if key sref.data sref.signature = false then
        .error (.invalidReferenceSignature i block.round block.node)
      else if ref.node = block.node then .error (.sameNode i block.round block.node)
      else .ok ref.id

/-- The loop over the references, from position `i` on. -/
def checkReferences (block : Block) : Nat → List SignedData → Except BlockError (List BlockID)
  | _, [] => .ok []
  | i, sref :: srefs => do
      let dep ← checkReference c block i sref
      let deps ← checkReferences block (i + 1) srefs
      .ok (dep :: deps)

/-- The checks of `processBlock`: what goes to the store and to the dependency graph. -/
def checkBlock (signed : SignedData) : Except BlockError BlockData :=
  match c.wire.unmarshalBlock signed.data with
  | none => .error .decoding
  | some block =>
    match c.keys.verify block.node with
    | none => .error (.noKey block.node)
    | some key =>
      let ref := c.wire.refOf signed.data block.node block.round
      let enc := c.wire.marshalRef ref
      if key enc signed.signature = false then
        .error (.invalidSignature block.round block.node)
      else do
        let prev ← checkPrevious c key block
        let deps ← checkReferences c block 0 block.references
        .ok ⟨deps, ref.id, prev, ⟨enc, signed.signature⟩⟩

def getPrevious (w : Wire) (block : Block) : Option BlockID :=
  if block.round = 1 then some .zero
  else do
    let previous ← block.previous
    let prev ← w.unmarshalRef previous.data
    some prev.id

/-- `getBlockData`; an undecodable block ends the process. -/
def getBlockData (w : Wire) (signed : SignedData) : Option BlockData := do
  let block ← w.unmarshalBlock signed.data
  let ref := w.refOf signed.data block.node block.round
  let prev ← getPrevious w block
  let deps ← block.references.mapM fun sref => (w.unmarshalRef sref.data).map BlockReference.id
  some ⟨deps, ref.id, prev, ⟨w.marshalRef ref, signed.signature⟩⟩

end Checks

/-! ## §2. What the checks mean. -/

section Meaning
variable {c : Config}

/-- The previous block is one of the same author, a round earlier, under its signature. -/
structure GoodPrevious (c : Config) (key : Bytes → Bytes → Bool) (block : Block)
    (previous : SignedData) (prev : BlockReference) : Prop where
  given : block.previous = some previous
  signature : key previous.data previous.signature = true
  decoded : c.wire.unmarshalRef previous.data = some prev
  node : prev.node = block.node
  round : (prev.round + 1) % 2 ^ 64 = block.round

/-- A reference is to a block of another node with a key, under its signature. -/
structure GoodReference (c : Config) (block : Block) (sref : SignedData) (ref : BlockReference)
    (key : Bytes → Bytes → Bool) : Prop where
  decoded : c.wire.unmarshalRef sref.data = some ref
  known : c.keys.verify ref.node = some key
  signature : key sref.data sref.signature = true
  other : ref.node ≠ block.node

theorem checkPrevious_iff {key : Bytes → Bytes → Bool} {block : Block} {id : BlockID} :
    checkPrevious c key block = .ok id ↔ block.round = 1 ∧ id = .zero ∨
        block.round ≠ 1 ∧ ∃ previous prev, GoodPrevious c key block previous prev ∧
          id = prev.id := by
  constructor
  · intro h
    unfold checkPrevious at h
    split at h
    next hround =>
      injection h with h
      exact .inl ⟨hround, h.symm⟩
    next hround =>
      split at h
      · cases h
      next previous hgiven =>
        split at h
        · cases h
        next hsig =>
          split at h
          · cases h
          next prev hdec =>
            split at h
            · cases h
            next hnode =>
              split at h
              · cases h
              next hr =>
                injection h with h
                exact .inr ⟨hround, previous, prev,
                  ⟨hgiven, by simpa using hsig, hdec, not_not.mp hnode, not_not.mp hr⟩, h.symm⟩
  intro h
  rcases h with ⟨hround, hid⟩ | ⟨hround, previous, prev, hgood, hid⟩
  · rw [hid]
    simp [checkPrevious, hround]
  rw [hid]
  have hlast : (if (prev.round + 1) % 2 ^ 64 ≠ block.round then
      Except.error (BlockError.previousRound block.round block.node)
      else .ok prev.id) = Except.ok prev.id := if_neg (not_not.mpr hgood.round)
  rw [← hlast]
  simp only [checkPrevious, if_neg hround, hgood.given, hgood.signature, hgood.decoded,
    hgood.node, Bool.true_eq_false, if_false, ne_eq, not_true_eq_false]

theorem checkReference_iff {block : Block} {i : Nat} {sref : SignedData} {id : BlockID} :
    checkReference c block i sref = .ok id ↔
      ∃ ref key, GoodReference c block sref ref key ∧ id = ref.id := by
  constructor
  · intro h
    unfold checkReference at h
    split at h
    · cases h
    next ref hdec =>
      split at h
      · cases h
      next key hkey =>
        split at h
        · cases h
        next hsig =>
          split at h
          · cases h
          next hother =>
            injection h with h
            exact ⟨ref, key, ⟨hdec, hkey, by simpa using hsig, hother⟩, h.symm⟩
  · intro h
    obtain ⟨ref, key, hgood, hid⟩ := h
    rw [hid]
    simp [checkReference, hgood.decoded, hgood.known, hgood.signature, hgood.other]

theorem checkReferences_iff {block : Block} {i : Nat} {srefs : List SignedData}
    {deps : List BlockID} :
    checkReferences c block i srefs = .ok deps ↔
      List.Forall₂ (fun sref dep => ∃ ref key, GoodReference c block sref ref key ∧ dep = ref.id)
        srefs deps := by
  induction srefs generalizing i deps with
  | nil =>
    constructor
    · intro h
      cases h
      exact .nil
    intro h
    cases h
    rfl
  | cons sref srefs ih =>
    unfold checkReferences
    constructor
    · intro h
      obtain ⟨dep, hdep, h⟩ := bind_eq_ok.mp h
      obtain ⟨rest, hrest, h⟩ := bind_eq_ok.mp h
      cases h
      exact .cons (checkReference_iff.mp hdep) (ih.mp hrest)
    intro h
    cases h with
    | cons hdep hrest =>
      rw [checkReference_iff.mpr hdep, ih.mpr hrest]
      rfl

/-- A block that passes the checks, with the key it passes under. -/
structure Admits (c : Config) (signed : SignedData) (block : Block) (key : Bytes → Bytes → Bool)
    (data : BlockData) : Prop where
  decoded : c.wire.unmarshalBlock signed.data = some block
  known : c.keys.verify block.node = some key
  ref : data.ref =
    ⟨c.wire.marshalRef (c.wire.refOf signed.data block.node block.round), signed.signature⟩
  signature : key data.ref.data data.ref.signature = true
  id : data.id = (c.wire.refOf signed.data block.node block.round).id
  previous : checkPrevious c key block = .ok data.prev
  references : List.Forall₂
    (fun sref dep => ∃ ref key, GoodReference c block sref ref key ∧ dep = ref.id)
    block.references data.deps

/-- **The checks of `processBlock`**, both ways. -/
theorem checkBlock_iff {signed : SignedData} {data : BlockData} :
    checkBlock c signed = .ok data ↔ ∃ block key, Admits c signed block key data := by
  constructor
  · intro h
    unfold checkBlock at h
    split at h
    · cases h
    next block hdec =>
      split at h
      · cases h
      next key hkey =>
        dsimp only at h
        split at h
        · cases h
        next hsig =>
          obtain ⟨prev, hprev, h⟩ := bind_eq_ok.mp h
          obtain ⟨deps, hdeps, h⟩ := bind_eq_ok.mp h
          cases h
          exact ⟨block, key, hdec, hkey, rfl, by simpa using hsig, rfl, hprev,
            checkReferences_iff.mp hdeps⟩
  intro h
  obtain ⟨block, key, hadm⟩ := h
  have hsig := hadm.signature
  rw [hadm.ref] at hsig
  have hdeps := checkReferences_iff (i := 0) |>.mpr hadm.references
  have heq : data = ⟨data.deps, (c.wire.refOf signed.data block.node block.round).id, data.prev,
      ⟨c.wire.marshalRef (c.wire.refOf signed.data block.node block.round),
        signed.signature⟩⟩ := by
    rw [← hadm.id, ← hadm.ref]
  unfold checkBlock
  simp only [hadm.decoded, hadm.known, hsig, hadm.previous, hdeps, Bool.true_eq_false, if_false]
  rw [heq]
  rfl

theorem Admits.node {signed : SignedData} {block : Block} {key : Bytes → Bytes → Bool}
    {data : BlockData} (h : Admits c signed block key data) : data.id.node = block.node := by
  rw [h.id]
  rfl

end Meaning

/-! ## §3. Reading back. -/

/-- **An admitted block reads back as it was admitted.** -/
theorem getBlockData_of_checkBlock {c : Config} {signed : SignedData} {data : BlockData}
    (h : checkBlock c signed = .ok data) : getBlockData c.wire signed = some data := by
  obtain ⟨block, key, hadm⟩ := checkBlock_iff.mp h
  have hprev : getPrevious c.wire block = some data.prev := by
    unfold getPrevious
    rcases checkPrevious_iff.mp hadm.previous with ⟨hround, hid⟩ | ⟨hround, _, prev, hgood, hid⟩
    · rw [if_pos hround, hid]
    · rw [if_neg hround, hgood.given, hid]
      simp [hgood.decoded]
  have hdeps : block.references.mapM (fun sref =>
      (c.wire.unmarshalRef sref.data).map BlockReference.id) = some data.deps := by
    have hall := hadm.references
    generalize block.references = srefs at hall
    generalize data.deps = deps at hall
    induction hall with
    | nil => rfl
    | cons hhead _ ih =>
      obtain ⟨ref, key, hgood, hid⟩ := hhead
      simp [List.mapM_cons, hgood.decoded, ih, hid]
  unfold getBlockData
  simp only [hadm.decoded, Option.bind_eq_bind, Option.bind_some, hprev, hdeps]
  rw [← hadm.id, ← hadm.ref]

/-! ## §4. Blocks anyone with a key can make. -/

def signBlock (c : Config) (block : Block) : SignedData :=
  let data := c.wire.marshalBlock block
  ⟨data, c.keys.sign block.node (c.wire.marshalRef (c.wire.refOf data block.node block.round))⟩

/-- **A first block without references is admitted**, whatever its transactions. -/
theorem signBlock_admitted {c : Config} {node : Nat} {key : Bytes → Bytes → Bool}
    (hkey : c.keys.verify node = some key) (txs : Option Transactions) :
    ∃ data, checkBlock c (signBlock c ⟨node, none, [], 1, txs⟩) = .ok data ∧
      data.id.node = node := by
  refine ⟨⟨[], (c.wire.refOf (signBlock c ⟨node, none, [], 1, txs⟩).data node 1).id, .zero, _⟩,
    checkBlock_iff.mpr ⟨⟨node, none, [], 1, txs⟩, key, c.wire.unmarshal_marshalBlock _, hkey, rfl,
      c.keys.verify_sign node key hkey _, rfl, ?_, .nil⟩, rfl⟩
  exact checkPrevious_iff.mpr (.inl ⟨rfl, rfl⟩)

def signRef (c : Config) (ref : BlockReference) : SignedData :=
  ⟨c.wire.marshalRef ref, c.keys.sign ref.node (c.wire.marshalRef ref)⟩

/-- **A later block without references is admitted** after any reference to the round before signed
by its author, also one with no hash. -/
theorem signBlock_admitted_after {c : Config} {key : Bytes → Bytes → Bool}
    (prev : BlockReference) (hkey : c.keys.verify prev.node = some key) (round : Nat)
    (hround : round ≠ 1) (hnext : (prev.round + 1) % 2 ^ 64 = round) :
    ∃ data, checkBlock c (signBlock c ⟨prev.node, some (signRef c prev), [], round, none⟩) =
        .ok data ∧ data.id.node = prev.node ∧ data.id.round = round ∧ data.deps = [] ∧
      data.prev = prev.id := by
  refine ⟨⟨[], (c.wire.refOf (signBlock c ⟨prev.node, some (signRef c prev), [], round, none⟩).data
      prev.node round).id, prev.id, _⟩,
    checkBlock_iff.mpr ⟨⟨prev.node, some (signRef c prev), [], round, none⟩, key,
      c.wire.unmarshal_marshalBlock _, hkey, rfl, c.keys.verify_sign prev.node key hkey _, rfl, ?_,
      .nil⟩, rfl, rfl, rfl, rfl⟩
  refine checkPrevious_iff.mpr (.inr ⟨hround, signRef c prev, prev, ?_, rfl⟩)
  exact ⟨rfl, c.keys.verify_sign prev.node key hkey _, c.wire.unmarshal_marshalRef prev, rfl, hnext⟩

end Chainspace.Broadcast
