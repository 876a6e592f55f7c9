/-
  Chainspace.Broadcast.Order — blocks leave the dependency graph after the blocks they need.

  Whether a block is included is answered from two caches and the database. The answer is yes only
  for blocks queued for inclusion or recorded in the database, so a block is queued behind the
  blocks it needs.
-/
import Chainspace.Broadcast.Service

namespace Chainspace.Broadcast

open Chainspace.Lib Chainspace.Blockmania List

/-! ## §1. The graph and its database. -/

/-- A dependency graph, the included keys of its database, and what `getBlocks` has returned. -/
structure Inclusion where
  graph : Depgraph
  included : BlockID → Bool
  output : List BlockData

def Inclusion.start (included : BlockID → Bool) (blocks : List BlockData) : Inclusion where
  graph := blocks.foldl Depgraph.add .new
  included := included
  output := []

/-- **What can happen to the graph.** `actuallyIncluded` comes after the database has the block. -/
inductive InclusionRun (self : Nat) : Inclusion → Prop
  | start (included : BlockID → Bool) (blocks : List BlockData) :
      InclusionRun self (.start included blocks)
  | add {n : Inclusion} (hrun : InclusionRun self n) (info : BlockData) :
      InclusionRun self { n with graph := n.graph.add info }
  | process {n : Inclusion} (hrun : InclusionRun self n) {keep : List BlockID} {d : Depgraph}
      (h : n.graph.step n.included self keep = some d) : InclusionRun self { n with graph := d }
  | getBlocks {n : Inclusion} (hrun : InclusionRun self n) (limit : Nat) :
      InclusionRun self { n with
        graph := (n.graph.getBlocks limit).2
        output := n.output ++ (n.graph.getBlocks limit).1 }
  | setOwnBlock {n : Inclusion} (hrun : InclusionRun self n) (ids : List BlockID) :
      InclusionRun self { n with included := fun id => id ∈ ids || n.included id }
  | actuallyIncluded {n : Inclusion} (hrun : InclusionRun self n) {id : BlockID}
      (h : n.included id = true) :
      InclusionRun self { n with graph := n.graph.actuallyIncluded id }
  | restart {n : Inclusion} (hrun : InclusionRun self n) (blocks : List BlockData) :
      InclusionRun self (.start n.included blocks)

/-! ## §2. Answers. -/

/-- A block is recorded in the database, has been returned, or is queued. -/
def Inclusion.Settled (n : Inclusion) (id : BlockID) : Prop :=
  n.included id = true ∨ id ∈ (n.output ++ n.graph.blocks).map BlockData.id

/-- **The caches are right**, and a queued block stands behind the blocks it needs. -/
structure Inclusion.Ordered (nodeID : Nat) (n : Inclusion) : Prop where
  tcache : ∀ id, n.graph.tcache id = some true → n.Settled id
  icache : ∀ id, n.graph.icache.lookup id = some true → n.Settled id
  queue : ∀ pre b post, n.graph.blocks = pre ++ b :: post → ∀ id ∈ Depgraph.needs nodeID b,
    n.included id = true ∨ id ∈ (n.output ++ pre).map BlockData.id

section Answers
variable {self : Nat} {n : Inclusion} {d : Depgraph}

theorem Inclusion.Ordered.congr (h : n.Ordered self) (htcache : d.tcache = n.graph.tcache)
    (hicache : d.icache = n.graph.icache) (hblocks : d.blocks = n.graph.blocks) :
    Inclusion.Ordered self { n with graph := d } := by
  have hsettled : ∀ id, n.Settled id → Inclusion.Settled { n with graph := d } id := by
    intro id hid
    unfold Inclusion.Settled
    rw [hblocks]
    exact hid
  refine ⟨?_, ?_, ?_⟩
  · intro id hid
    exact hsettled id (h.tcache id (htcache ▸ hid))
  · intro id hid
    exact hsettled id (h.icache id (hicache ▸ hid))
  · intro pre b post hsplit
    exact h.queue pre b post (hblocks ▸ hsplit)

/-- **An answer**: the caches stay right, and a positive answer is right. -/
theorem Inclusion.Ordered.isIncluded (h : n.Ordered self) (id : BlockID) :
    Inclusion.Ordered self { n with graph := (n.graph.isIncluded n.included id).2 } ∧
      ((n.graph.isIncluded n.included id).1 = true → n.Settled id) := by
  unfold Depgraph.isIncluded
  split
  next hinc =>
    refine ⟨h, ?_⟩
    intro htrue
    exact h.tcache id (by rw [hinc]; exact congrArg some htrue)
  split
  next hinc =>
    refine ⟨h, ?_⟩
    intro htrue
    exact h.icache id (by rw [hinc]; exact congrArg some htrue)
  refine ⟨⟨h.tcache, ?_, h.queue⟩, fun htrue => .inl htrue⟩
  intro k hk
  by_cases hkid : k = id
  · subst hkid
    rw [AList.lookup_insert] at hk
    injection hk with hk
    exact .inl hk
  · rw [AList.lookup_insert_ne hkid] at hk
    exact h.icache k hk

theorem Inclusion.Ordered.missing (h : n.Ordered self) (ids : List BlockID) :
    Inclusion.Ordered self { n with graph := (n.graph.missing n.included ids).2 } ∧
      ((n.graph.missing n.included ids).1 = [] → ∀ id ∈ ids, n.Settled id) := by
  induction ids generalizing n with
  | nil => exact ⟨h, fun _ id hid => absurd hid not_mem_nil⟩
  | cons id ids ih =>
    obtain ⟨h1, hyes⟩ := h.isIncluded id
    obtain ⟨h2, hrest⟩ := ih h1
    refine ⟨h2, ?_⟩
    intro hnil
    have hnil : (if (n.graph.isIncluded n.included id).1
        then ((n.graph.isIncluded n.included id).2.missing n.included ids).1
        else id :: ((n.graph.isIncluded n.included id).2.missing n.included ids).1) = [] := hnil
    have hblocks : (n.graph.isIncluded n.included id).2.blocks = n.graph.blocks := by
      obtain ⟨ic, hic⟩ := n.graph.isIncluded_eq n.included id
      rw [hic]
    split at hnil
    next htrue =>
      intro k hk
      rcases mem_cons.mp hk with heq | hk
      · exact heq ▸ hyes htrue
      have hsettled := hrest hnil k hk
      unfold Inclusion.Settled at hsettled ⊢
      rwa [hblocks] at hsettled
    · cases hnil

end Answers

/-! ## §3. The order. -/

section Order
variable {self : Nat} {n : Inclusion} {d : Depgraph}

section
variable (h : n.Ordered self)
include h

theorem Inclusion.Ordered.enqueue {block : BlockData}
    (hneeds : ∀ id ∈ Depgraph.needs self block, n.Settled id) :
    Inclusion.Ordered self { n with graph := { n.graph.markIncluded block.id with
      blocks := n.graph.blocks ++ [block] } } := by
  have hsettled : ∀ id, id = block.id ∨ n.Settled id →
      Inclusion.Settled { n with graph := { n.graph.markIncluded block.id with
        blocks := n.graph.blocks ++ [block] } } id := by
    intro id hid
    unfold Inclusion.Settled
    rw [← append_assoc, map_append, mem_append]
    rcases hid with heq | hid | hid
    · exact .inr (.inr (by simp [heq]))
    · exact .inl hid
    · exact .inr (.inl hid)
  refine ⟨?_, ?_, ?_⟩
  · intro id hid
    have hid : n.graph.tcache.set block.id true id = some true := hid
    by_cases heq : id = block.id
    · exact hsettled id (.inl heq)
    · rw [PMap.set_ne _ _ heq] at hid
      exact hsettled id (.inr (h.tcache id hid))
  · intro id hid
    have hid : (n.graph.icache.insert block.id true).lookup id = some true := hid
    by_cases heq : id = block.id
    · exact hsettled id (.inl heq)
    · rw [AList.lookup_insert_ne heq] at hid
      exact hsettled id (.inr (h.icache id hid))
  intro pre b post hsplit id hid
  have hsplit : n.graph.blocks ++ [block] = pre ++ b :: post := hsplit
  -- `b` is the new block, or stands in the old queue.
  rcases eq_nil_or_concat post with hpost | ⟨post', last, hpost⟩
  · subst hpost
    obtain ⟨hpre, hb⟩ := append_inj' hsplit rfl
    cases hb
    rw [← hpre]
    exact hneeds id hid
  subst hpost
  have hold : n.graph.blocks = pre ++ b :: post' := by
    rw [concat_eq_append] at hsplit
    have hsplit : n.graph.blocks ++ [block] = (pre ++ b :: post') ++ [last] := by
      rw [hsplit, append_assoc, cons_append]
    exact (append_inj' hsplit rfl).1
  exact h.queue pre b post' hold id hid

/-- **`processBlock`** queues a block behind the blocks it needs, or not at all. -/
theorem Inclusion.Ordered.processBlock {block : BlockData} {r : Bool × Depgraph}
    (hr : n.graph.processBlock n.included self block = some r) :
    Inclusion.Ordered self { n with graph := r.2 } := by
  obtain ⟨h1, _⟩ := h.isIncluded block.id
  obtain ⟨h2, hneeds⟩ := h1.missing (Depgraph.needs self block)
  unfold Depgraph.processBlock at hr
  dsimp only at hr
  split at hr
  · cases hr
    exact h1
  split at hr
  · split at hr
    · cases hr
      exact h2.congr rfl rfl rfl
    · cases hr
  next hnone =>
    cases hr
    have hblocks : ((n.graph.isIncluded n.included block.id).2.missing n.included
        (Depgraph.needs self block)).2.blocks =
          (n.graph.isIncluded n.included block.id).2.blocks := by
      obtain ⟨ic, hic⟩ := (n.graph.isIncluded n.included block.id).2.missing_eq n.included
        (Depgraph.needs self block)
      rw [hic]
    refine h2.enqueue ?_
    intro id hid
    have hsettled := hneeds (not_not.mp hnone) id hid
    unfold Inclusion.Settled at hsettled ⊢
    rw [hblocks]
    exact hsettled

theorem Inclusion.Ordered.nextIteration {keep : List BlockID}
    (heq : n.graph.nextIteration keep = some d) : Inclusion.Ordered self { n with graph := d } := by
  unfold Depgraph.nextIteration at heq
  dsimp only at heq
  split at heq
  · split at heq
    · cases heq
      refine ⟨h.tcache, ?_, h.queue⟩
      intro id hid
      have hmem := AList.mem_lookup_iff.mp hid
      exact h.icache id (AList.mem_lookup_iff.mpr (mem_of_mem_filter hmem))
    · cases heq
  · cases heq
    exact h.congr rfl rfl rfl

theorem Inclusion.Ordered.step {keep : List BlockID}
    (hstep : n.graph.step n.included self keep = some d) :
    Inclusion.Ordered self { n with graph := d } := by
  unfold Depgraph.step at hstep
  split at hstep
  · split at hstep
    · cases hstep
    next info rest _ =>
      split at hstep
      · cases hstep
      next d1 hd1 =>
        obtain ⟨r, hr, hstep⟩ := Option.map_eq_some_iff.mp hstep
        have h1 : Inclusion.Ordered self { n with graph := { d1 with incoming := rest } } :=
          (h.nextIteration hd1).congr rfl rfl rfl
        exact hstep ▸ (h1.processBlock hr).congr rfl rfl rfl
  · cases hstep
    exact h.congr rfl rfl rfl
  · cases hstep
    exact h.congr rfl rfl rfl
  · cases hstep
    split
    all_goals exact h.congr rfl rfl rfl
  next next _ _ _ _ _ _ =>
    split at hstep
    · cases hstep
      exact h.congr rfl rfl rfl
    split at hstep
    · cases hstep
    next block _ =>
      obtain ⟨r, hr, hstep⟩ := Option.map_eq_some_iff.mp hstep
      exact hstep ▸ (h.processBlock hr).congr rfl rfl rfl

theorem Inclusion.Ordered.getBlocks (limit : Nat) :
    Inclusion.Ordered self { n with
      graph := (n.graph.getBlocks limit).2
      output := n.output ++ (n.graph.getBlocks limit).1 } := by
  have htake : (n.graph.getBlocks limit).1 ++ (n.graph.getBlocks limit).2.blocks =
      n.graph.blocks := take_append_drop _ _
  have hsettled : ∀ id, n.Settled id → Inclusion.Settled { n with
      graph := (n.graph.getBlocks limit).2
      output := n.output ++ (n.graph.getBlocks limit).1 } id := by
    intro id hid
    unfold Inclusion.Settled
    rw [append_assoc, htake]
    exact hid
  refine ⟨fun id hid => hsettled id (h.tcache id hid),
    fun id hid => hsettled id (h.icache id hid), ?_⟩
  intro pre b post hsplit id hid
  rw [append_assoc]
  refine h.queue ((n.graph.getBlocks limit).1 ++ pre) b post ?_ id hid
  rw [← htake, hsplit, append_assoc]

theorem Inclusion.Ordered.setOwnBlock (ids : List BlockID) :
    Inclusion.Ordered self { n with included := fun id => id ∈ ids || n.included id } := by
  have hmono : ∀ id, n.included id = true → (id ∈ ids || n.included id) = true := by
    intro id hid
    simp [hid]
  have hsettled : ∀ id, n.Settled id →
      Inclusion.Settled { n with included := fun id => id ∈ ids || n.included id } id := by
    intro id hid
    rcases hid with hid | hid
    · exact .inl (hmono id hid)
    · exact .inr hid
  refine ⟨fun id hid => hsettled id (h.tcache id hid),
    fun id hid => hsettled id (h.icache id hid), ?_⟩
  intro pre b post hsplit id hid
  rcases h.queue pre b post hsplit id hid with hinc | hpre
  · exact .inl (hmono id hinc)
  · exact .inr hpre

end

theorem Inclusion.ordered_start (included : BlockID → Bool) (blocks : List BlockData) :
    Inclusion.Ordered self (.start included blocks) := by
  have hnew : Inclusion.Ordered self ⟨.new, included, []⟩ := by
    refine ⟨fun id hid => absurd hid (by simp [Depgraph.new]),
      fun id hid => absurd hid (by simp [Depgraph.new]), ?_⟩
    intro pre b post hsplit
    exact absurd hsplit (by simp [Depgraph.new])
  unfold Inclusion.start
  generalize Depgraph.new = g at hnew
  induction blocks generalizing g with
  | nil => exact hnew
  | cons info blocks ih =>
    exact ih (g.add info) (hnew.congr rfl rfl rfl)

theorem InclusionRun.ordered (hrun : InclusionRun self n) : n.Ordered self := by
  induction hrun with
  | start included blocks => exact Inclusion.ordered_start included blocks
  | add _ info ih => exact ih.congr rfl rfl rfl
  | process _ h ih => exact ih.step h
  | getBlocks _ limit ih => exact ih.getBlocks limit
  | setOwnBlock _ ids ih => exact ih.setOwnBlock ids
  | actuallyIncluded _ h ih =>
    exact ⟨fun id hid => ih.tcache id (PMap.of_erase hid), ih.icache, ih.queue⟩
  | restart _ blocks => exact Inclusion.ordered_start _ blocks

end Order

/-- **Blocks come after the blocks they need**: when `getBlocks` returns a block, its previous block
and its dependencies on other nodes were returned before it, or the database has them. -/
theorem needed_blocks_first {self : Nat} {n : Inclusion} (hrun : InclusionRun self n)
    (limit : Nat) {pre post : List BlockData} {b : BlockData}
    (hout : (n.graph.getBlocks limit).1 = pre ++ b :: post) {id : BlockID}
    (hid : (b.prev.valid = true ∧ id = b.prev) ∨ (id ∈ b.deps ∧ id.node ≠ self)) :
    id ∈ (n.output ++ pre).map BlockData.id ∨ n.included id = true := by
  have hneeds : id ∈ Depgraph.needs self b := by
    rcases hid with ⟨hvalid, heq⟩ | ⟨hmem, hne⟩
    · exact mem_append_left _ (by simp [hvalid, heq])
    · exact mem_append_right _ (mem_filter.mpr ⟨hmem, by simpa using hne⟩)
  have hsplit : n.graph.blocks = pre ++ b :: (post ++ (n.graph.getBlocks limit).2.blocks) := by
    have htake : (n.graph.getBlocks limit).1 ++ (n.graph.getBlocks limit).2.blocks =
        n.graph.blocks := take_append_drop _ _
    rw [← htake, hout, append_assoc, cons_append]
  exact (hrun.ordered.queue pre b _ hsplit id hneeds).symm

/-- A digest of 32 bytes. -/
def digestOf (b : UInt8) : Hash := List.replicate 32 b

/-- The first block of node 2. -/
def firstOfChain : BlockData := ⟨[], ⟨digestOf 1, 2, 1⟩, .zero, ⟨[], []⟩⟩

/-- Its second block, with a reference to a block of node 1. -/
def secondOfChain : BlockData :=
  ⟨[⟨digestOf 9, 1, 1⟩], ⟨digestOf 2, 2, 2⟩, firstOfChain.id, ⟨[], []⟩⟩

def Inclusion.process (nodeID : Nat) (n : Inclusion) : Nat → Inclusion
  | 0 => n
  | fuel + 1 =>
    match n.graph.step n.included nodeID [] with
    | none => n
    | some d => Inclusion.process nodeID { n with graph := d } fuel

theorem InclusionRun.processes {self : Nat} {n : Inclusion} (hrun : InclusionRun self n)
    (fuel : Nat) : InclusionRun self (n.process self fuel) := by
  induction fuel generalizing n with
  | zero => exact hrun
  | succ fuel ih =>
    unfold Inclusion.process
    split
    · exact hrun
    next hd => exact ih (hrun.process hd)

/-- A block arrives at node 1 before the block it follows, and comes out behind it. -/
theorem needed_blocks_first_late :
    ∃ n, InclusionRun 1 n ∧ (n.graph.getBlocks 1000).1 = [firstOfChain] ++ secondOfChain :: [] ∧
      (secondOfChain.prev ∈ (n.output ++ [firstOfChain]).map BlockData.id ∨
        n.included secondOfChain.prev = true) := by
  have hrun : InclusionRun 1 (Inclusion.process 1
      (.start (fun _ => false) [secondOfChain, firstOfChain]) 8) :=
    (InclusionRun.start _ _).processes 8
  have hout : ((Inclusion.process 1
      (.start (fun _ => false) [secondOfChain, firstOfChain]) 8).graph.getBlocks 1000).1 =
        [firstOfChain] ++ secondOfChain :: [] := by decide +kernel
  exact ⟨_, hrun, hout, needed_blocks_first hrun 1000 hout (.inl ⟨rfl, rfl⟩)⟩

end Chainspace.Broadcast
