/-
  Chainspace.Broadcast.Once — no block is included twice (`broadcast/depgraph.go`).

  Whether a block is included is answered from two caches and the database: it is marked in both
  caches when it is queued, and leaves the transient one once an own block with it is stored. The
  other may be pruned at any time. So the answers are exact: the included blocks are those that are
  queued, on their way into an own block, or recorded in one.
-/
import Chainspace.Broadcast.Order

namespace Chainspace.Broadcast

open Chainspace.Lib Chainspace.Blockmania List

namespace Depgraph

/-! ## §1. Exact answers. -/

section Exact
variable {stored : BlockID → Bool} {S : BlockID → Prop} {self : Nat} {d d' : Depgraph}

/-- The caches and the database agree on which blocks are settled; so does the database alone where
the transient cache is silent. -/
structure Exact (stored : BlockID → Bool) (S : BlockID → Prop) (d : Depgraph) : Prop where
  tcache : ∀ id inc, d.tcache id = some inc → inc = true ∧ S id
  icache : ∀ id inc, d.icache.lookup id = some inc → (inc = true ↔ S id)
  database : ∀ id, d.tcache id = none → (stored id = true ↔ S id)

theorem Exact.congr (h : d.Exact stored S) (htcache : d'.tcache = d.tcache)
    (hicache : d'.icache = d.icache) : d'.Exact stored S where
  tcache := htcache ▸ h.tcache
  icache := hicache ▸ h.icache
  database := htcache ▸ h.database

/-- **An answer is right**, and the cache it may fill stays so. -/
theorem Exact.isIncluded (h : d.Exact stored S) (id : BlockID) :
    ((d.isIncluded stored id).1 = true ↔ S id) ∧
      ∃ ic, (d.isIncluded stored id).2 = { d with icache := ic } ∧
        Exact stored S { d with icache := ic } := by
  unfold Depgraph.isIncluded
  split
  next inc hinc =>
    obtain ⟨htrue, hs⟩ := h.tcache id inc hinc
    exact ⟨⟨fun _ => hs, fun _ => htrue⟩, d.icache, rfl, h⟩
  next hnone =>
    split
    next inc hinc => exact ⟨h.icache id inc hinc, d.icache, rfl, h⟩
    refine ⟨h.database id hnone, _, rfl, h.tcache, ?_, h.database⟩
    intro k inc hk
    by_cases hkid : k = id
    · subst hkid
      rw [AList.lookup_insert] at hk
      injection hk with hk
      rw [← hk]
      exact h.database k hnone
    · rw [AList.lookup_insert_ne hkid] at hk
      exact h.icache k inc hk

theorem Exact.missing (h : d.Exact stored S) (ids : List BlockID) :
    (∀ id, id ∈ (d.missing stored ids).1 ↔ id ∈ ids ∧ ¬ S id) ∧
      ∃ ic, (d.missing stored ids).2 = { d with icache := ic } ∧
        Exact stored S { d with icache := ic } := by
  induction ids generalizing d with
  | nil => exact ⟨fun _ => by simp [Depgraph.missing], d.icache, rfl, h⟩
  | cons id ids ih =>
    obtain ⟨hanswer, ic, hic, h1⟩ := h.isIncluded id
    obtain ⟨hrest, ic', hic', h2⟩ := ih h1
    have hmissing : d.missing stored (id :: ids) = (if (d.isIncluded stored id).1 then
            (Depgraph.missing stored { d with icache := ic } ids).1
          else id :: (Depgraph.missing stored { d with icache := ic } ids).1,
          (Depgraph.missing stored { d with icache := ic } ids).2) := by
      rw [← hic]
      rfl
    rw [hmissing]
    refine ⟨?_, ic', hic', h2⟩
    intro k
    split
    next hyes =>
      rw [hrest]
      constructor
      · intro hk
        exact ⟨mem_cons_of_mem id hk.1, hk.2⟩
      intro hk
      rcases mem_cons.mp hk.1 with heq | hmem
      · exact absurd (hanswer.mp hyes) (heq ▸ hk.2)
      · exact ⟨hmem, hk.2⟩
    next hno =>
      rw [mem_cons, hrest, mem_cons]
      constructor
      · intro hk
        rcases hk with heq | hk
        · exact ⟨.inl heq, heq ▸ fun hs => hno (hanswer.mpr hs)⟩
        · exact ⟨.inr hk.1, hk.2⟩
      intro hk
      rcases hk.1 with heq | hmem
      · exact .inl heq
      · exact .inr ⟨hmem, hk.2⟩

/-- The outcomes of `processBlock`: the block it queues, its answer, and what is left. -/
inductive Handles (stored : BlockID → Bool) (S : BlockID → Prop) (self : Nat) (d : Depgraph)
    (block : BlockData) : Option BlockData → Bool → Depgraph → Prop
  | settled (ic : AList fun _ : BlockID => Bool) (h : S block.id)
      (hexact : Exact stored S { d with icache := ic }) :
      Handles stored S self d block none true { d with icache := ic }
  | waits (ic : AList fun _ : BlockID => Bool) (deps : List BlockID) (h : ¬ S block.id)
      (hdeps : ∀ id, id ∈ deps ↔ id ∈ needs self block ∧ ¬ S id) (hne : deps ≠ [])
      (hexact : Exact stored S { d with icache := ic }) :
      Handles stored S self d block none false ({ d with icache := ic }.addPending block deps)
  | queues (ic : AList fun _ : BlockID => Bool) (h : ¬ S block.id)
      (hneeds : ∀ id ∈ needs self block, S id) (hexact : Exact stored S { d with icache := ic }) :
      Handles stored S self d block (some block) true
        { { d with icache := ic }.markIncluded block.id with blocks := d.blocks ++ [block] }

/-- The block `processBlock` queues. -/
def queues (stored : BlockID → Bool) (self : Nat) (d : Depgraph) (block : BlockData) :
    Option BlockData :=
  if (d.isIncluded stored block.id).1 then none
  else if ((d.isIncluded stored block.id).2.missing stored (needs self block)).1 ≠ [] then none
  else some block

theorem Exact.processBlock (h : d.Exact stored S) {self : Nat} {block : BlockData}
    {r : Bool × Depgraph} (hr : d.processBlock stored self block = some r) :
    Handles stored S self d block (d.queues stored self block) r.1 r.2 := by
  obtain ⟨hanswer, ic, hic, h1⟩ := h.isIncluded block.id
  obtain ⟨hmissing, ic', hic', h2⟩ := h1.missing (needs self block)
  unfold Depgraph.processBlock at hr
  unfold Depgraph.queues
  dsimp only at hr
  rw [hic] at hr ⊢
  split at hr
  next hyes =>
    cases hr
    rw [if_pos hyes]
    exact .settled ic (hanswer.mp hyes) h1
  next hno =>
    have hunsettled : ¬ S block.id := fun hs => hno (hanswer.mpr hs)
    rw [if_neg hno]
    split at hr
    next hne =>
      split at hr
      · cases hr
        rw [if_pos hne, hic']
        exact .waits ic' _ hunsettled hmissing hne h2
      · cases hr
    next hnil =>
      cases hr
      rw [if_neg hnil, hic']
      have hnil := not_not.mp hnil
      refine .queues ic' hunsettled ?_ h2
      intro id hid
      by_contra hs
      have hmem := (hmissing id).mpr ⟨hid, hs⟩
      rw [hnil] at hmem
      cases hmem

variable {block : BlockData} {ok : Bool} {q : Option BlockData}

section
variable (h : Handles stored S self d block q ok d')
include h

theorem Handles.exact : d'.Exact stored fun id => S id ∨ id ∈ q.toList.map BlockData.id := by
  cases h with
  | settled ic h hexact =>
    simpa using hexact
  | waits ic deps h _ _ hexact =>
    have hexact : Exact stored S ({ d with icache := ic }.addPending block deps) :=
      hexact.congr rfl rfl
    simpa using hexact
  | queues ic h _ hexact =>
    refine ⟨?_, ?_, ?_⟩
    · intro id inc hid
      have hid : d.tcache.set block.id true id = some inc := hid
      by_cases heq : id = block.id
      · subst heq
        rw [PMap.set_self] at hid
        injection hid with hid
        exact ⟨hid.symm, .inr (by simp)⟩
      rw [PMap.set_ne _ _ heq] at hid
      obtain ⟨htrue, hs⟩ := hexact.tcache id inc hid
      exact ⟨htrue, .inl hs⟩
    · intro id inc hid
      have hid : (ic.insert block.id true).lookup id = some inc := hid
      by_cases heq : id = block.id
      · subst heq
        rw [AList.lookup_insert] at hid
        injection hid with hid
        rw [← hid]
        simp
      rw [AList.lookup_insert_ne heq] at hid
      rw [hexact.icache id inc hid]
      simp [heq]
    intro id hid
    have hid : d.tcache.set block.id true id = none := hid
    by_cases heq : id = block.id
    · subst heq
      simp at hid
    rw [PMap.set_ne _ _ heq] at hid
    rw [hexact.database id hid]
    simp [heq]

theorem Handles.blocks
    : d'.blocks = d.blocks ++ q.toList := by
  cases h with
  | settled => simp
  | waits => simp [addPending]
  | queues => rfl

theorem Handles.unsettled
    : ∀ b ∈ q.toList, ¬ S b.id := by
  cases h with
  | settled | waits => simp
  | queues ic h => simpa using h

end

end Exact

/-! ## §2. Steps. -/

section Steps
variable {stored : BlockID → Bool} {S : BlockID → Prop} {self : Nat} {d d' : Depgraph}

theorem kept_nodupKeys (d : Depgraph) (keep : List BlockID) :
    (d.icache.entries.filter fun e => e.1 ∈ keep).NodupKeys :=
  d.icache.nodupKeys.sublist filter_sublist

def prune (d : Depgraph) (keep : List BlockID) : Depgraph :=
  { d with icache := ⟨d.icache.entries.filter fun e => e.1 ∈ keep, d.kept_nodupKeys keep⟩ }

theorem Exact.prune (h : d.Exact stored S) (keep : List BlockID) :
    (d.prune keep).Exact stored S where
  tcache := h.tcache
  icache := by
    intro id inc hid
    have hmem := AList.mem_lookup_iff.mp hid
    exact h.icache id inc (AList.mem_lookup_iff.mpr (mem_of_mem_filter hmem))
  database := h.database

def queuedBy (stored : BlockID → Bool) (self : Nat) (keep : List BlockID) (d : Depgraph) :
    Option BlockData :=
  match d.cascade with
  | .idle =>
    match d.incoming with
    | [] => none
    | info :: rest => (d.nextIteration keep).bind fun d =>
      queues stored self { d with incoming := rest } info
  | .revdeps _ (revdep :: _) _ seen _ =>
    if revdep ∈ seen then none else (d.pending revdep).bind (d.queues stored self)
  | _ => none

/-- The outcomes of `Depgraph.step`, with the block that is queued. -/
inductive Steps (stored : BlockID → Bool) (S : BlockID → Prop) (self : Nat) (d : Depgraph) :
    Option BlockData → Depgraph → Prop
  | take {info : BlockData} {rest : List BlockData} {d1 d2 : Depgraph} {q : Option BlockData}
      {ok : Bool} (hcascade : d.cascade = .idle) (hin : d.incoming = info :: rest)
      (hd1 : ∃ i ic, d1 = { d with iteration := i, icache := ic, incoming := rest })
      (h : Handles stored S self d1 info q ok d2) :
      Steps stored S self d q
        { d2 with cascade := if ok then .head [info.id] [info.id] true else .idle }
  | finish {seen : List BlockID} {first : Bool} (hcascade : d.cascade = .head [] seen first) :
      Steps stored S self d none { d with cascade := .idle }
  | pop {next : BlockID} {processed seen : List BlockID} {first : Bool}
      (hcascade : d.cascade = .head (next :: processed) seen first) :
      Steps stored S self d none
        { d with cascade := .revdeps next ((d.await next).getD []) processed seen first }
  | leave {next : BlockID} {processed seen : List BlockID} {first : Bool}
      (hcascade : d.cascade = .revdeps next [] processed seen first) :
      Steps stored S self d none { d with
        await := d.await.erase next
        cascade := .head processed seen false
        pending := if first then d.pending else d.pending.erase next }
  | skip {next revdep : BlockID} {rest processed seen : List BlockID} {first : Bool}
      (hcascade : d.cascade = .revdeps next (revdep :: rest) processed seen first)
      (hseen : revdep ∈ seen) :
      Steps stored S self d none { d with cascade := .revdeps next rest processed seen first }
  | visit {next revdep : BlockID} {rest processed seen : List BlockID} {first : Bool}
      {block : BlockData} {d2 : Depgraph} {q : Option BlockData} {ok : Bool}
      (hcascade : d.cascade = .revdeps next (revdep :: rest) processed seen first)
      (hseen : revdep ∉ seen) (hpending : d.pending revdep = some block)
      (h : Handles stored S self d block q ok d2) :
      Steps stored S self d q { d2 with
        cascade := if ok then (.revdeps next rest (processed ++ [revdep]) [] first)
          else .revdeps next rest processed (revdep :: seen) first }

variable {keep : List BlockID}

theorem nextIteration_cases (h : d.nextIteration keep = some d') :
    ∃ i, d' = { d with iteration := i } ∨ d' = { d.prune keep with iteration := i } := by
  unfold Depgraph.nextIteration at h
  dsimp only at h
  split at h
  · split at h
    · injection h with h
      exact ⟨_, .inr h.symm⟩
    · cases h
  · injection h with h
    exact ⟨_, .inl h.symm⟩

theorem Exact.step (h : d.Exact stored S) (hstep : d.step stored self keep = some d') :
    Steps stored S self d (d.queuedBy stored self keep) d' := by
  unfold Depgraph.step at hstep
  split at hstep
  next hcascade =>
    split at hstep
    · cases hstep
    next info rest hin =>
      split at hstep
      · cases hstep
      next d1 hd1 =>
        obtain ⟨r, hr, hstep⟩ := Option.map_eq_some_iff.mp hstep
        subst hstep
        unfold queuedBy
        rw [hcascade, hin, hd1]
        have hboth : Exact stored S { d1 with incoming := rest } ∧
            ∃ i ic, { d1 with incoming := rest } =
              { d with iteration := i, icache := ic, incoming := rest } := by
          obtain ⟨i, heq | heq⟩ := nextIteration_cases hd1
          · exact ⟨(h.congr rfl rfl).congr (by rw [heq]) (by rw [heq]), i, d.icache, by rw [heq]⟩
          refine ⟨(h.prune keep).congr (by rw [heq]) (by rw [heq]), i, (d.prune keep).icache, ?_⟩
          rw [heq]
          rfl
        exact .take hcascade hin hboth.2 (hboth.1.processBlock hr)
  next hcascade =>
    injection hstep with hstep
    unfold queuedBy
    rw [hcascade, ← hstep]
    exact .finish hcascade
  next hcascade =>
    injection hstep with hstep
    unfold queuedBy
    rw [hcascade, ← hstep]
    exact .pop hcascade
  next first hcascade =>
    injection hstep with hstep
    unfold queuedBy
    rw [hcascade, ← hstep]
    cases first with
    | true | false => exact .leave hcascade
  next next _ _ _ _ _ hcascade =>
    unfold queuedBy
    rw [hcascade]
    dsimp only
    split at hstep
    next hseen =>
      injection hstep with hstep
      rw [← hstep, if_pos hseen]
      exact .skip hcascade hseen
    next hseen =>
      split at hstep
      · cases hstep
      next block hpending =>
        obtain ⟨r, hr, hstep⟩ := Option.map_eq_some_iff.mp hstep
        rw [← hstep, if_neg hseen, hpending]
        exact .visit hcascade hseen hpending (h.processBlock hr)

theorem Steps.exact {q : Option BlockData} (hstep : Steps stored S self d q d')
    (h : d.Exact stored S) :
    d'.Exact stored fun id => S id ∨ id ∈ q.toList.map BlockData.id := by
  have hsame : ∀ {d' : Depgraph}, d'.tcache = d.tcache → d'.icache = d.icache →
      d'.Exact stored fun id => S id ∨ id ∈ (none : Option BlockData).toList.map BlockData.id := by
    intro d' htcache hicache
    simpa using h.congr htcache hicache
  cases hstep with
  | take _ _ _ hh | visit _ _ _ hh => exact hh.exact.congr rfl rfl
  | finish | pop | leave | skip => exact hsame rfl rfl

theorem Steps.blocks {q : Option BlockData} (hstep : Steps stored S self d q d') :
    d'.blocks = d.blocks ++ q.toList ∧ ∀ b ∈ q.toList, ¬ S b.id := by
  cases hstep with
  | take _ _ hd1 hh =>
    obtain ⟨i, ic, heq⟩ := hd1
    refine ⟨?_, hh.unsettled⟩
    have hblocks := hh.blocks
    rw [heq] at hblocks
    exact hblocks
  | finish | pop | leave | skip => simp
  | visit _ _ _ hh => exact ⟨hh.blocks, hh.unsettled⟩

end Steps

end Depgraph

/-! ## §3. The graph, its database and its own blocks. -/

/-- Where `genBlocks` stands with the blocks it has taken. -/
inductive Recording
  /-- `getBlocks` has returned them; `setOwnBlock` is to come -/
  | taken (ids : List BlockID)
  /-- the database has them; `actuallyIncluded` is still to come for these -/
  | recorded (ids : List BlockID)
  deriving DecidableEq

def Recording.ids : Recording → List BlockID
  | taken ids => ids
  | recorded _ => []

/-- A dependency graph, the included keys of its database, and the blocks of the own block graphs
there. The blocks added, queued and returned are kept for the proofs only. -/
structure Including where
  graph : Depgraph
  included : BlockID → Bool
  graphs : List (List BlockID)
  gen : Recording
  added : List BlockData
  queued : List BlockData
  output : List BlockData

namespace Including

def start (included : BlockID → Bool) (graphs : List (List BlockID)) (blocks : List BlockData) :
    Including where
  graph := blocks.foldl Depgraph.add .new
  included := included
  graphs := graphs
  gen := .recorded []
  added := blocks
  queued := []
  output := []

def add (n : Including) (info : BlockData) : Including :=
  { n with graph := n.graph.add info, added := n.added ++ [info] }

def processed (n : Including) (self : Nat) (keep : List BlockID) (d : Depgraph) : Including :=
  { n with graph := d, queued := n.queued ++ (n.graph.queuedBy n.included self keep).toList }

def prune (n : Including) (keep : List BlockID) : Including :=
  { n with graph := n.graph.prune keep }

def getBlocks (n : Including) (limit : Nat) : Including :=
  { n with
    graph := (n.graph.getBlocks limit).2
    gen := .taken ((n.graph.getBlocks limit).1.map BlockData.id)
    output := n.output ++ (n.graph.getBlocks limit).1 }

def setOwnBlock (n : Including) (ids : List BlockID) : Including :=
  { n with
    included := fun id => id ∈ ids || n.included id
    graphs := n.graphs ++ [ids]
    gen := .recorded ids }

def actuallyIncluded (n : Including) (id : BlockID) (ids : List BlockID) : Including :=
  { n with graph := n.graph.actuallyIncluded id, gen := .recorded ids }

/-- A block is recorded in the database, has been returned, or is queued. -/
def Settled (n : Including) (id : BlockID) : Prop :=
  n.included id = true ∨ id ∈ (n.output ++ n.graph.blocks).map BlockData.id

theorem settled_processed {n : Including} {stored : BlockID → Bool} {S : BlockID → Prop}
    {self : Nat} {keep : List BlockID} {d : Depgraph}
    (hstep : n.graph.Steps stored S self (n.graph.queuedBy n.included self keep) d) (id : BlockID) :
    (n.processed self keep d).Settled id ↔ n.Settled id ∨
      id ∈ (n.graph.queuedBy n.included self keep).toList.map BlockData.id := by
  unfold Settled processed
  rw [hstep.blocks.1, ← append_assoc, map_append, mem_append, or_assoc]

theorem settled_getBlocks (n : Including) (limit : Nat) (id : BlockID) :
    (n.getBlocks limit).Settled id ↔ n.Settled id := by
  have htake : (n.graph.getBlocks limit).1 ++ (n.graph.getBlocks limit).2.blocks =
      n.graph.blocks := take_append_drop _ _
  unfold Settled getBlocks
  rw [append_assoc, htake]

theorem included_setOwnBlock (n : Including) (ids : List BlockID) (id : BlockID) :
    (n.setOwnBlock ids).included id = true ↔ id ∈ ids ∨ n.included id = true := by
  show (decide (id ∈ ids) || n.included id) = true ↔ _
  simp

end Including

/-- **A run** from an empty database. Blocks are added and the cache is pruned at will; `genBlocks`
records the blocks it has taken before it takes others. A restart loses all but the database, and
adds the blocks it reads there. -/
inductive IncludingRun (self : Nat) : Including → Prop
  | start : IncludingRun self (.start (fun _ => false) [] [])
  | add {n : Including} (hrun : IncludingRun self n) (info : BlockData) :
      IncludingRun self (n.add info)
  | process {n : Including} (hrun : IncludingRun self n) {keep : List BlockID} {d : Depgraph}
      (h : n.graph.step n.included self keep = some d) :
      IncludingRun self (n.processed self keep d)
  | prune {n : Including} (hrun : IncludingRun self n) (keep : List BlockID) :
      IncludingRun self (n.prune keep)
  | getBlocks {n : Including} (hrun : IncludingRun self n) (hgen : n.gen = .recorded [])
      (limit : Nat) : IncludingRun self (n.getBlocks limit)
  | setOwnBlock {n : Including} (hrun : IncludingRun self n) {ids : List BlockID}
      (hgen : n.gen = .taken ids) : IncludingRun self (n.setOwnBlock ids)
  | actuallyIncluded {n : Including} (hrun : IncludingRun self n) {id : BlockID}
      {ids : List BlockID} (hgen : n.gen = .recorded (id :: ids)) :
      IncludingRun self (n.actuallyIncluded id ids)
  | restart {n : Including} (hrun : IncludingRun self n) (blocks : List BlockData) :
      IncludingRun self (.start n.included n.graphs blocks)

/-! ## §4. Every run. -/

/-- **The state of a run.** Answers are exact; no block is in two places of own block graphs, blocks
taken and queue; what was queued was returned or is in the queue. -/
structure Including.Exact (n : Including) : Prop where
  answers : n.graph.Exact n.included n.Settled
  recorded : ∀ id, n.included id = true ↔ id ∈ n.graphs.flatten
  taken : ∀ id ∈ n.gen.ids, id ∈ n.output.map BlockData.id
  leaving : ∀ ids, n.gen = .recorded ids → ∀ id ∈ ids, n.included id = true
  once : (n.graphs.flatten ++ (n.gen.ids ++ n.graph.blocks.map BlockData.id)).Nodup
  log : n.output ++ n.graph.blocks = n.queued

namespace Including.Exact

variable {self : Nat} {n : Including}

theorem start {included : BlockID → Bool} {graphs : List (List BlockID)}
    (hrecorded : ∀ id, included id = true ↔ id ∈ graphs.flatten) (honce : graphs.flatten.Nodup)
    (blocks : List BlockData) : Exact (.start included graphs blocks) := by
  have hgraph : (blocks.foldl Depgraph.add .new).tcache = .empty ∧
      (blocks.foldl Depgraph.add .new).icache = ∅ ∧
      (blocks.foldl Depgraph.add .new).blocks = [] := by
    apply foldl_inv (fun d : Depgraph => d.tcache = .empty ∧ d.icache = ∅ ∧ d.blocks = [])
    · exact ⟨rfl, rfl, rfl⟩
    · intro info _ d h
      exact h
  obtain ⟨htcache, hicache, hblocks⟩ := hgraph
  have hsettled : ∀ id, (Including.start included graphs blocks).Settled id ↔
      included id = true := by
    intro id
    unfold Including.Settled Including.start
    simp [hblocks]
  refine ⟨⟨?_, ?_, ?_⟩, hrecorded, by simp [Including.start, Recording.ids], ?_, ?_, ?_⟩
  · intro id inc hid
    have hid : (blocks.foldl Depgraph.add .new).tcache id = some inc := hid
    rw [htcache] at hid
    cases hid
  · intro id inc hid
    have hid : (blocks.foldl Depgraph.add .new).icache.lookup id = some inc := hid
    rw [hicache] at hid
    cases hid
  · intro id _
    exact (hsettled id).symm
  · intro ids hgen id hid
    cases hgen
    cases hid
  · show (graphs.flatten ++ ([] ++ (blocks.foldl Depgraph.add .new).blocks.map _)).Nodup
    rw [hblocks]
    simpa using honce
  · show [] ++ (blocks.foldl Depgraph.add .new).blocks = []
    rw [hblocks]
    rfl

theorem congr (h : n.Exact) {d : Depgraph} {added : List BlockData}
    (hanswers : d.Exact n.included n.Settled) (hblocks : d.blocks = n.graph.blocks) :
    Exact { n with graph := d, added := added } := by
  have hsettled : Including.Settled { n with graph := d, added := added } = n.Settled := by
    funext id
    unfold Including.Settled
    rw [hblocks]
  refine ⟨?_, h.recorded, h.taken, h.leaving, ?_, ?_⟩
  · rw [hsettled]
    exact hanswers
  · rw [hblocks]
    exact h.once
  · rw [hblocks]
    exact h.log

variable {id : BlockID} {ids : List BlockID}

section
variable (h : n.Exact)
include h

theorem not_mem (hid : ¬ n.Settled id) :
    id ∉ n.graphs.flatten ++ (n.gen.ids ++ n.graph.blocks.map BlockData.id) := by
  intro hmem
  apply hid
  unfold Including.Settled
  rw [map_append, mem_append]
  rcases mem_append.mp hmem with hmem | hmem
  · exact .inl ((h.recorded id).mpr hmem)
  rcases mem_append.mp hmem with hmem | hmem
  · exact .inr (.inl (h.taken id hmem))
  · exact .inr (.inr hmem)

theorem process {keep : List BlockID} {d : Depgraph}
    (hstep : n.graph.step n.included self keep = some d) : (n.processed self keep d).Exact := by
  have hsteps := h.answers.step hstep
  obtain ⟨hblocks, hnew⟩ := hsteps.blocks
  have hanswers := hsteps.exact h.answers
  have hsettled := funext fun id => propext (Including.settled_processed hsteps id)
  refine ⟨?_, h.recorded, h.taken, h.leaving, ?_, ?_⟩
  · rw [hsettled]
    exact hanswers
  · show (n.graphs.flatten ++ (n.gen.ids ++ d.blocks.map BlockData.id)).Nodup
    rw [hblocks, map_append, ← append_assoc n.gen.ids, ← append_assoc]
    cases hq : n.graph.queuedBy n.included self keep with
    | none => simpa using h.once
    | some b =>
      have hb : ¬ n.Settled b.id := hnew b (by rw [hq]; exact mem_singleton_self b)
      exact nodup_append'.mpr ⟨h.once, nodup_singleton _, by simpa using h.not_mem hb⟩
  · show n.output ++ d.blocks = n.queued ++ _
    rw [hblocks, ← append_assoc, h.log]

theorem getBlocks (hgen : n.gen = .recorded []) (limit : Nat) : (n.getBlocks limit).Exact := by
  have htake : (n.graph.getBlocks limit).1 ++ (n.graph.getBlocks limit).2.blocks =
      n.graph.blocks := take_append_drop _ _
  have hsettled := funext fun id => propext (n.settled_getBlocks limit id)
  refine ⟨?_, h.recorded, ?_, ?_, ?_, ?_⟩
  · rw [hsettled]
    exact h.answers.congr rfl rfl
  · intro id hid
    show id ∈ (n.output ++ (n.graph.getBlocks limit).1).map BlockData.id
    rw [map_append]
    exact mem_append_right _ hid
  · intro ids hids
    exact absurd hids (by simp [Including.getBlocks])
  · show (n.graphs.flatten ++ ((n.graph.getBlocks limit).1.map BlockData.id ++
      (n.graph.getBlocks limit).2.blocks.map BlockData.id)).Nodup
    rw [← map_append, htake]
    have honce := h.once
    rw [hgen] at honce
    exact honce
  · show n.output ++ _ ++ (n.graph.getBlocks limit).2.blocks = n.queued
    rw [append_assoc, htake]
    exact h.log

theorem settled_of_taken (hgen : n.gen = .taken ids) (hid : id ∈ ids) : n.Settled id := by
  right
  rw [map_append]
  apply mem_append_left
  apply h.taken
  rw [hgen]
  exact hid

theorem settled_setOwnBlock (hgen : n.gen = .taken ids)
    (id : BlockID) : (n.setOwnBlock ids).Settled id ↔ n.Settled id := by
  show (n.setOwnBlock ids).included id = true ∨ _ ↔ _
  rw [included_setOwnBlock, or_assoc]
  constructor
  · intro hid
    rcases hid with hid | hid
    · exact h.settled_of_taken hgen hid
    · exact hid
  · exact .inr

theorem setOwnBlock (hgen : n.gen = .taken ids) : (n.setOwnBlock ids).Exact := by
  have hincluded := n.included_setOwnBlock ids
  have hsettled := funext fun id => propext (h.settled_setOwnBlock hgen id)
  refine ⟨⟨?_, ?_, ?_⟩, ?_, ?_, ?_, ?_, h.log⟩
  · rw [hsettled]
    exact h.answers.tcache
  · rw [hsettled]
    exact h.answers.icache
  · intro id hid
    have hdb : n.included id = true ↔ n.Settled id := h.answers.database id hid
    rw [hincluded, hsettled, hdb]
    constructor
    · intro hid
      rcases hid with hid | hid
      · exact h.settled_of_taken hgen hid
      · exact hid
    · exact .inr
  · intro id
    rw [hincluded, h.recorded]
    show _ ↔ id ∈ (n.graphs ++ [ids]).flatten
    rw [flatten_append, mem_append, flatten_singleton, or_comm]
  · intro id hid
    cases hid
  · intro ids' hids' id hid
    cases hids'
    exact (hincluded id).mpr (.inl hid)
  have honce := h.once
  rw [hgen] at honce
  show ((n.graphs ++ [ids]).flatten ++ ([] ++ n.graph.blocks.map BlockData.id)).Nodup
  rw [flatten_append, flatten_singleton, append_assoc]
  exact honce

theorem actuallyIncluded
    (hgen : n.gen = .recorded (id :: ids)) : (n.actuallyIncluded id ids).Exact := by
  have hleaving := h.leaving _ hgen
  refine ⟨⟨?_, h.answers.icache, ?_⟩, h.recorded, ?_, ?_, ?_, h.log⟩
  · intro k inc hk
    exact h.answers.tcache k inc (PMap.of_erase hk)
  · intro k hk
    have hk : n.graph.tcache.erase id k = none := hk
    by_cases heq : k = id
    · subst heq
      have hin := hleaving k mem_cons_self
      exact ⟨fun _ => .inl hin, fun _ => hin⟩
    · rw [PMap.erase_apply, if_neg heq] at hk
      exact h.answers.database k hk
  · intro k hk
    cases hk
  · intro ids' hids' k hk
    cases hids'
    exact hleaving k (mem_cons_of_mem id hk)
  · have honce := h.once
    rw [hgen] at honce
    exact honce

end

end Including.Exact

variable {self : Nat}

theorem IncludingRun.exact {n : Including} (hrun : IncludingRun self n) : n.Exact := by
  induction hrun with
  | start => exact .start (by simp) (by simp) []
  | add _ info ih => exact ih.congr (ih.answers.congr rfl rfl) rfl
  | process _ h ih => exact ih.process h
  | prune _ keep ih => exact ih.congr (ih.answers.prune keep) rfl
  | getBlocks _ hgen limit ih => exact ih.getBlocks hgen limit
  | setOwnBlock _ hgen ih => exact ih.setOwnBlock hgen
  | actuallyIncluded _ hgen ih => exact ih.actuallyIncluded hgen
  | restart _ blocks ih => exact .start ih.recorded (nodup_append.mp ih.once).1 blocks

/-! ## §5. The result. -/

/-- **No block is included twice**: no block occurs in two own block graphs or twice in one, and the
blocks `getBlocks` has returned since the start, followed by the queue, are those that were queued,
in order. -/
theorem included_once {self : Nat} {n : Including} (hrun : IncludingRun self n) :
    n.graphs.flatten.Nodup ∧ n.output ++ n.graph.blocks = n.queued :=
  ⟨(nodup_append.mp hrun.exact.once).1, hrun.exact.log⟩

def Including.process (nodeID : Nat) (n : Including) : Nat → Including
  | 0 => n
  | fuel + 1 =>
    match n.graph.step n.included nodeID [] with
    | none => n
    | some d => Including.process nodeID (n.processed nodeID [] d) fuel

theorem IncludingRun.processes {n : Including} (hrun : IncludingRun self n)
    (fuel : Nat) : IncludingRun self (n.process self fuel) := by
  induction fuel generalizing n with
  | zero => exact hrun
  | succ fuel ih =>
    unfold Including.process
    split
    · exact hrun
    next hd => exact ih (hrun.process hd)

theorem IncludingRun.allIncluded {x : Including} (hrun : IncludingRun self x)
    {ids : List BlockID} (hgen : x.gen = .recorded ids) :
    IncludingRun self { x with
      graph := ids.foldl Depgraph.actuallyIncluded x.graph
      gen := .recorded [] } := by
  induction ids generalizing x with
  | nil =>
    rw [← hgen]
    exact hrun
  | cons id ids ih =>
    have hone := hrun.actuallyIncluded hgen
    exact ih hone rfl

def bothQueued : Including :=
  (((Including.start (fun _ => false) [] []).add secondOfChain).add firstOfChain).process 1 8

theorem bothQueued_run : IncludingRun 1 bothQueued :=
  ((IncludingRun.start.add secondOfChain).add firstOfChain).processes 8

/-- They are included in an own block; one arrives again, and stays out of the next. -/
theorem included_once_again :
    ∃ n, IncludingRun 1 n ∧ n.graphs = [[firstOfChain.id, secondOfChain.id], []] ∧
      n.graphs.flatten.Nodup ∧ n.output ++ n.graph.blocks = n.queued := by
  have htaken : (bothQueued.getBlocks 1000).gen = .taken [firstOfChain.id, secondOfChain.id] := by
    decide +kernel
  have hown := ((bothQueued_run.getBlocks rfl 1000).setOwnBlock htaken).allIncluded rfl
  have hagain := ((hown.add firstOfChain).processes 8).getBlocks rfl 1000
  have hrun := hagain.setOwnBlock rfl
  exact ⟨_, hrun, by decide +kernel, included_once hrun⟩

def ownIncludes (graph : BlockGraph) : List BlockID := graph.deps.map Dep.block

end Chainspace.Broadcast
