/-
  Chainspace.Broadcast.Depgraph — the queue of blocks to include (`broadcast/depgraph.go`).

  A received block waits until its previous block and its dependencies are included; then it is
  queued, and the blocks that waited for it are looked at again. That cascade runs in a goroutine of
  its own; a step here is the handling of one block, since it can be interrupted wherever its locks
  are free. `stored` is the value of the included key of a block in the database. A block that lacks
  a reference is logged with the texts of both identifiers, and `String` panics on a hash of 1 to 11
  bytes (`printable`), whatever the level of the log.
-/
import Chainspace.Broadcast.Types
import Mathlib.Data.List.AList

namespace Chainspace.Broadcast

open Chainspace.Lib Chainspace.Blockmania

/-! ## §1. State. -/

/-- Where the goroutine of `process` stands. -/
inductive Cascade
  /-- at the head of the outer loop -/
  | idle
  /-- at the head of the loop over `processed` -/
  | head (processed seen : List BlockID) (first : Bool)
  /-- in the loop over the blocks that waited for `next` -/
  | revdeps (next : BlockID) (rest processed seen : List BlockID) (first : Bool)

structure Depgraph where
  await : PMap BlockID (List BlockID)
  blocks : List BlockData
  icache : AList (fun _ : BlockID => Bool)
  /-- the field `in` -/
  incoming : List BlockData
  pending : PMap BlockID BlockData
  tcache : PMap BlockID Bool
  /-- the counter `i` of `process` -/
  iteration : Nat
  cascade : Cascade

def Depgraph.new : Depgraph where
  await := .empty
  blocks := []
  icache := ∅
  incoming := []
  pending := .empty
  tcache := .empty
  iteration := 0
  cascade := .idle

namespace Depgraph

/-! ## §2. Operations. -/

def actuallyIncluded (d : Depgraph) (id : BlockID) : Depgraph :=
  { d with tcache := d.tcache.erase id }

def add (d : Depgraph) (info : BlockData) : Depgraph :=
  { d with incoming := d.incoming ++ [info] }

def awaitOne (id : BlockID) (await : PMap BlockID (List BlockID)) (dep : BlockID) :
    PMap BlockID (List BlockID) :=
  match await dep with
  | some ids => if id ∈ ids then await else await.set dep (ids ++ [id])
  | none => await.set dep [id]

def addPending (d : Depgraph) (block : BlockData) (deps : List BlockID) : Depgraph :=
  { d with
    pending := d.pending.set block.id block
    await := deps.foldl (awaitOne block.id) d.await }

/-- The loop of `getBlocks`: how many blocks fit, when `total` bytes are taken. -/
def fitting (limit : Nat) : Nat → List BlockData → Nat
  | _, [] => 0
  | total, block :: blocks =>
    if total + block.ref.size > limit then 0
    else fitting limit (total + block.ref.size) blocks + 1

def getBlocks (d : Depgraph) (limit : Nat) : List BlockData × Depgraph :=
  let idx := fitting limit 0 d.blocks
  (d.blocks.take idx, { d with blocks := d.blocks.drop idx })

section Stored
variable (stored : BlockID → Bool)

/-- `isIncluded`: the caches first, then the database. -/
def isIncluded (d : Depgraph) (id : BlockID) : Bool × Depgraph :=
  match d.tcache id with
  | some inc => (inc, d)
  | none =>
    match d.icache.lookup id with
    | some inc => (inc, d)
    | none => (stored id, { d with icache := d.icache.insert id (stored id) })

def markIncluded (d : Depgraph) (id : BlockID) : Depgraph :=
  { d with icache := d.icache.insert id true, tcache := d.tcache.set id true }

def missing (d : Depgraph) : List BlockID → List BlockID × Depgraph
  | [] => ([], d)
  | id :: ids =>
    let (inc, d) := d.isIncluded stored id
    let (rest, d) := d.missing ids
    (if inc then rest else id :: rest, d)

/-- What a block needs: its previous block, and its dependencies on other nodes. -/
def needs (self : Nat) (block : BlockData) : List BlockID :=
  (if block.prev.valid then [block.prev] else []) ++ block.deps.filter fun dep => dep.node ≠ self

/-- `BlockID.String` does not panic: it indexes the bytes 6 to 11 of a hash that is not empty. -/
def printable (id : BlockID) : Bool := id.hash = [] ∨ 12 ≤ id.hash.length

/-- `processBlock`; `none` if the log message about a missing reference panics. -/
def processBlock (self : Nat) (d : Depgraph) (block : BlockData) : Option (Bool × Depgraph) :=
  let (inc, d) := d.isIncluded stored block.id
  if inc then some (true, d)
  else
    let (deps, d) := d.missing stored (needs self block)
    if deps ≠ [] then
      if (block.id :: deps).all printable then some (false, d.addPending block deps) else none
    else
      let d := d.markIncluded block.id
      some (true, { d with blocks := d.blocks ++ [block] })

/-- The head of the loop of `process`: every 100 iterations a large `icache` is pruned. `keep` are
the 1000 entries Go's map order picks, and `none` a choice it does not have. -/
def nextIteration (d : Depgraph) (keep : List BlockID) : Option Depgraph :=
  let i := d.iteration + 1
  if i % 100 = 0 ∧ d.icache.entries.length > 1000 then
    let entries := d.icache.entries.filter fun e => e.1 ∈ keep
    if entries.length = 1000 then
      some { d with
        iteration := i
        icache := ⟨entries, d.icache.nodupKeys.sublist List.filter_sublist⟩ }
    else none
  else some { d with iteration := i }

/-- The start of a cascade, with a block from the input queue. -/
def processIncoming (self : Nat) (d : Depgraph) (info : BlockData) : Option Depgraph :=
  (d.processBlock stored self info).map fun r =>
    { r.2 with cascade := if r.1 then .head [info.id] [info.id] true else .idle }

/-- A block that waited for `next` is looked at again. -/
def processRevdep (self : Nat) (d : Depgraph) (next revdep : BlockID) (block : BlockData)
    (rest processed seen : List BlockID) (first : Bool) : Option Depgraph :=
  (d.processBlock stored self block).map fun r =>
    { r.2 with cascade :=
      if r.1 then .revdeps next rest (processed ++ [revdep]) [] first
      else .revdeps next rest processed (revdep :: seen) first }

/-- One step of `process`. `none`: it waits, or panics on a block that is not pending or on the text
of an identifier. -/
def step (self : Nat) (keep : List BlockID) (d : Depgraph) : Option Depgraph :=
  match d.cascade with
  | .idle =>
    match d.incoming with
    | [] => none
    | info :: rest =>
      match d.nextIteration keep with
      | none => none
      | some d => { d with incoming := rest }.processIncoming stored self info
  | .head [] _ _ => some { d with cascade := .idle }
  | .head (next :: processed) seen first =>
    some { d with cascade := .revdeps next ((d.await next).getD []) processed seen first }
  | .revdeps next [] processed seen first =>
    let d := { d with await := d.await.erase next, cascade := .head processed seen false }
    some (if first then d else { d with pending := d.pending.erase next })
  | .revdeps next (revdep :: rest) processed seen first =>
    if revdep ∈ seen then
      some { d with cascade := .revdeps next rest processed seen first }
    else
      match d.pending revdep with
      | none => none
      | some block => d.processRevdep stored self next revdep block rest processed seen first

end Stored

/-! ## §3. Where the blocks of the graph come from. -/

section Content
variable (stored : BlockID → Bool) {d d' : Depgraph}

theorem isIncluded_eq (d : Depgraph) (id : BlockID) :
    ∃ ic, (d.isIncluded stored id).2 = { d with icache := ic } := by
  unfold isIncluded
  split
  · exact ⟨d.icache, rfl⟩
  split
  · exact ⟨d.icache, rfl⟩
  · exact ⟨_, rfl⟩

theorem missing_eq (d : Depgraph) (ids : List BlockID) :
    ∃ ic, (d.missing stored ids).2 = { d with icache := ic } := by
  induction ids generalizing d with
  | nil => exact ⟨d.icache, rfl⟩
  | cons id ids ih =>
    obtain ⟨ic, hic⟩ := d.isIncluded_eq stored id
    obtain ⟨ic', hic'⟩ := ih (d.isIncluded stored id).2
    refine ⟨ic', ?_⟩
    show ((d.isIncluded stored id).2.missing stored ids).2 = _
    rw [hic', hic]

theorem processBlock_cases (self : Nat) {block : BlockData} {ok : Bool}
    (h : d.processBlock stored self block = some (ok, d')) :
    ∃ ic, ok = true ∧ d' = { d with icache := ic } ∨
      (∃ deps, ok = false ∧ d' = { d with icache := ic }.addPending block deps) ∨
      ok = true ∧ d' = { { d with icache := ic }.markIncluded block.id with
        blocks := d.blocks ++ [block] } := by
  obtain ⟨ic, hic⟩ := d.isIncluded_eq stored block.id
  obtain ⟨ic', hic'⟩ := (d.isIncluded stored block.id).2.missing_eq stored (needs self block)
  unfold processBlock at h
  dsimp only at h
  split at h
  · cases h
    exact ⟨ic, .inl ⟨rfl, by rw [hic]⟩⟩
  split at h
  · split at h
    · cases h
      exact ⟨ic', .inr (.inl ⟨_, rfl, by rw [hic', hic]⟩)⟩
    · cases h
  · cases h
    exact ⟨ic', .inr (.inr ⟨rfl, by rw [hic', hic]; rfl⟩)⟩

theorem missing_subset (d : Depgraph) (ids : List BlockID) : (d.missing stored ids).1 ⊆ ids := by
  induction ids generalizing d with
  | nil => exact List.Subset.refl []
  | cons id ids ih =>
    have hrest := ih (d.isIncluded stored id).2
    unfold missing
    dsimp only
    split
    · exact fun k hk => List.mem_cons_of_mem id (hrest hk)
    · exact List.cons_subset_cons id hrest

/-- Where the texts can be made, `processBlock` returns. -/
theorem exists_processBlock (d : Depgraph) {self : Nat} {block : BlockData}
    (hid : printable block.id = true) (hneeds : ∀ id ∈ needs self block, printable id = true) :
    ∃ r, d.processBlock stored self block = some r := by
  have hdeps : ∀ d : Depgraph,
      (block.id :: (d.missing stored (needs self block)).1).all printable = true := by
    intro d
    refine List.all_eq_true.mpr (List.forall_mem_cons.mpr ⟨hid, fun id h => ?_⟩)
    exact hneeds id (d.missing_subset stored _ h)
  unfold processBlock
  dsimp only
  split
  · exact ⟨_, rfl⟩
  split
  · rw [if_pos (hdeps _)]
    exact ⟨_, rfl⟩
  · exact ⟨_, rfl⟩

/-- All blocks the graph holds satisfy `P`. -/
structure AllBlocks (P : BlockData → Prop) (d : Depgraph) : Prop where
  incoming : ∀ b ∈ d.incoming, P b
  pending : ∀ id b, d.pending id = some b → P b
  blocks : ∀ b ∈ d.blocks, P b

variable {P : BlockData → Prop}

theorem allBlocks_new : AllBlocks P .new where
  incoming := fun _ h => absurd h (by simp [new])
  pending := fun _ _ h => absurd h (by simp [new])
  blocks := fun _ h => absurd h (by simp [new])

theorem AllBlocks.add (h : AllBlocks P d) {info : BlockData} (hinfo : P info) :
    AllBlocks P (d.add info) where
  incoming := by
    exact List.forall_mem_append.mpr ⟨h.incoming, List.forall_mem_singleton.mpr hinfo⟩
  pending := h.pending
  blocks := h.blocks

theorem AllBlocks.getBlocks (h : AllBlocks P d) (limit : Nat) :
    (∀ b ∈ (d.getBlocks limit).1, P b) ∧ AllBlocks P (d.getBlocks limit).2 :=
  ⟨fun b hb => h.blocks b (List.mem_of_mem_take hb),
    h.incoming, h.pending, fun b hb => h.blocks b (List.mem_of_mem_drop hb)⟩

theorem AllBlocks.processBlock (h : AllBlocks P d) (self : Nat) {block : BlockData} {ok : Bool}
    (hblock : P block) (heq : d.processBlock stored self block = some (ok, d')) :
    AllBlocks P d' := by
  obtain ⟨ic, ⟨_, hd⟩ | ⟨deps, _, hd⟩ | ⟨_, hd⟩⟩ := processBlock_cases stored self heq
  · exact hd ▸ ⟨h.incoming, h.pending, h.blocks⟩
  · subst hd
    refine ⟨h.incoming, ?_, h.blocks⟩
    intro id b hb
    rcases PMap.of_set hb with ⟨_, hb⟩ | ⟨_, hb⟩
    · exact hb ▸ hblock
    · exact h.pending id b hb
  subst hd
  refine ⟨h.incoming, h.pending, ?_⟩
  exact List.forall_mem_append.mpr ⟨h.blocks, List.forall_mem_singleton.mpr hblock⟩

theorem AllBlocks.nextIteration (h : AllBlocks P d) {keep : List BlockID}
    (heq : d.nextIteration keep = some d') : AllBlocks P d' := by
  unfold Depgraph.nextIteration at heq
  dsimp only at heq
  split at heq
  · split at heq
    · cases heq
      exact ⟨h.incoming, h.pending, h.blocks⟩
    · cases heq
  · cases heq
    exact ⟨h.incoming, h.pending, h.blocks⟩

/-- **A step of the cascade brings in no block.** -/
theorem AllBlocks.step (h : AllBlocks P d) {self : Nat} {keep : List BlockID}
    (hstep : d.step stored self keep = some d') : AllBlocks P d' := by
  unfold Depgraph.step at hstep
  split at hstep
  · split at hstep
    · cases hstep
    next info rest hin =>
      split at hstep
      · cases hstep
      next d1 hd1 =>
        have h1 := h.nextIteration hd1
        have hinfo : P info := h.incoming info (hin ▸ List.mem_cons_self)
        have hrest : AllBlocks P { d1 with incoming := rest } :=
          ⟨fun b hb => h.incoming b (hin ▸ List.mem_cons_of_mem info hb), h1.pending, h1.blocks⟩
        obtain ⟨r, hr, hstep⟩ := Option.map_eq_some_iff.mp hstep
        have h2 := hrest.processBlock stored self hinfo hr
        exact hstep ▸ ⟨h2.incoming, h2.pending, h2.blocks⟩
  · cases hstep
    exact ⟨h.incoming, h.pending, h.blocks⟩
  · cases hstep
    exact ⟨h.incoming, h.pending, h.blocks⟩
  · injection hstep with hstep
    rw [← hstep]
    split
    · exact ⟨h.incoming, h.pending, h.blocks⟩
    · exact ⟨h.incoming, fun id b hb => h.pending id b (PMap.of_erase hb), h.blocks⟩
  next next revdep _ _ _ _ _ =>
    split at hstep
    · cases hstep
      exact ⟨h.incoming, h.pending, h.blocks⟩
    split at hstep
    · cases hstep
    next block hblock =>
      obtain ⟨r, hr, hstep⟩ := Option.map_eq_some_iff.mp hstep
      have h2 := h.processBlock stored self (h.pending revdep block hblock) hr
      exact hstep ▸ ⟨h2.incoming, h2.pending, h2.blocks⟩

end Content

end Depgraph

end Chainspace.Broadcast
