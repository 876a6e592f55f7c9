/-
  Chainspace.Broadcast.Index — the inclusion index of the database (`broadcast/store.go`).

  Three families of keys say what has become of a block: `included` with the values 0 and 1,
  `notIncluded`, and the block itself. `setBlock` and `setOwnBlock` write them, each in one
  transaction, and `getNotIncluded` reads them back after a restart. Any list of calls covers a
  crash between two.
-/
import Chainspace.Broadcast.Acceptance
import Chainspace.Broadcast.Once
import Mathlib.Data.List.Induction

namespace Chainspace.Broadcast

open Chainspace.Lib Chainspace.Blockmania List

/-! ## §1. Calls. -/

/-- A call that writes to the index. -/
inductive StoreCall
  | setBlock (id : BlockID) (block : SignedData)
  | setOwnBlock (block blockRef : SignedData) (graph : BlockGraph)

namespace Db

def call (db : Db) : StoreCall → Db
  | .setBlock id block => db.setBlock id block
  | .setOwnBlock block blockRef graph => db.setOwnBlock block blockRef graph

def calls (db : Db) (cs : List StoreCall) : Db := cs.foldl call db

@[simp] theorem calls_append (db : Db) (pre post : List StoreCall) :
    db.calls (pre ++ post) = (db.calls pre).calls post :=
  foldl_append

/-- The value under `blockGraphKey`: the last block graph that was written there. -/
def getBlockGraph (db : Db) (id : BlockID) : Option BlockGraph :=
  db.graphs.reverse.find? fun g => g.block = id

end Db

def Accepted (cs : List StoreCall) (id : BlockID) : Prop := ∃ block, .setBlock id block ∈ cs

def OwnGraph (cs : List StoreCall) (graph : BlockGraph) : Prop :=
  ∃ block blockRef, .setOwnBlock block blockRef graph ∈ cs

def Referenced (cs : List StoreCall) (id : BlockID) : Prop :=
  ∃ graph, OwnGraph cs graph ∧ id ∈ ownIncludes graph

/-- Own block graphs with the same block include the same blocks. -/
def KeyedGraphs (cs : List StoreCall) : Prop :=
  ∀ g g', OwnGraph cs g → OwnGraph cs g' → g.block = g'.block → ownIncludes g = ownIncludes g'

/-! ## §2. What the index says. -/

structure Indexed (cs : List StoreCall) (db : Db) : Prop where
  referenced : ∀ id, db.included id = some true ↔ Referenced cs id
  accepted : ∀ id, db.included id = some false ↔ Accepted cs id ∧ ¬ Referenced cs id
  notIncluded : ∀ id, id ∈ db.notIncluded ↔ db.included id = some false
  nodup : db.notIncluded.Nodup
  graphs : ∀ g, g ∈ db.graphs ↔ OwnGraph cs g
  stored : ∀ id, db.included id = some false → (db.blocks id).isSome = true
  blocks : ∀ id signed, db.blocks id = some signed → .setBlock id signed ∈ cs ∨
    ∃ blockRef graph, .setOwnBlock signed blockRef graph ∈ cs ∧ graph.block = id

section Indexed
variable {cs : List StoreCall} {db : Db}

theorem indexed_empty : Indexed [] .empty := by
  refine ⟨?_, ?_, ?_, nodup_nil, ?_, ?_, ?_⟩
  · simp [Db.empty, Referenced, OwnGraph]
  · simp [Db.empty, Accepted]
  · simp [Db.empty]
  · simp [Db.empty, OwnGraph]
  · simp [Db.empty]
  · simp [Db.empty]

theorem accepted_setBlock (id k : BlockID) (block : SignedData) :
    Accepted (cs ++ [.setBlock id block]) k ↔ Accepted cs k ∨ k = id := by
  unfold Accepted
  simp only [mem_append, mem_singleton, StoreCall.setBlock.injEq]
  constructor
  · rintro ⟨b, hb | hb⟩
    · exact .inl ⟨b, hb⟩
    · exact .inr hb.1
  rintro (⟨b, hb⟩ | heq)
  · exact ⟨b, .inl hb⟩
  · exact ⟨block, .inr ⟨heq, rfl⟩⟩

theorem ownGraph_setBlock (id : BlockID) (block : SignedData) (g : BlockGraph) :
    OwnGraph (cs ++ [.setBlock id block]) g ↔ OwnGraph cs g := by
  simp [OwnGraph]

theorem referenced_setBlock (id k : BlockID) (block : SignedData) :
    Referenced (cs ++ [.setBlock id block]) k ↔ Referenced cs k := by
  simp [Referenced, ownGraph_setBlock]

theorem accepted_setOwnBlock (block blockRef : SignedData) (graph : BlockGraph) (k : BlockID) :
    Accepted (cs ++ [.setOwnBlock block blockRef graph]) k ↔ Accepted cs k := by
  simp [Accepted]

theorem ownGraph_setOwnBlock (block blockRef : SignedData) (graph g : BlockGraph) :
    OwnGraph (cs ++ [.setOwnBlock block blockRef graph]) g ↔ OwnGraph cs g ∨ g = graph := by
  unfold OwnGraph
  simp only [mem_append, mem_singleton, StoreCall.setOwnBlock.injEq]
  constructor
  · rintro ⟨b, r, hb | hb⟩
    · exact .inl ⟨b, r, hb⟩
    · exact .inr hb.2.2
  rintro (⟨b, r, hb⟩ | heq)
  · exact ⟨b, r, .inl hb⟩
  · exact ⟨block, blockRef, .inr ⟨rfl, rfl, heq⟩⟩

theorem referenced_setOwnBlock (block blockRef : SignedData) (graph : BlockGraph) (k : BlockID) :
    Referenced (cs ++ [.setOwnBlock block blockRef graph]) k ↔
      Referenced cs k ∨ k ∈ ownIncludes graph := by
  unfold Referenced
  simp only [ownGraph_setOwnBlock]
  constructor
  · rintro ⟨g, hg | hg, hk⟩
    · exact .inl ⟨g, hg, hk⟩
    · exact .inr (hg ▸ hk)
  rintro (⟨g, hg, hk⟩ | hk)
  · exact ⟨g, .inl hg, hk⟩
  · exact ⟨graph, .inr rfl, hk⟩

theorem Indexed.setBlock (h : Indexed cs db) (id : BlockID) (block : SignedData) :
    Indexed (cs ++ [.setBlock id block]) (db.setBlock id block) := by
  have hmem : StoreCall.setBlock id block ∈ cs ++ [.setBlock id block] := by simp
  have hkeep : ∀ {k signed}, db.blocks k = some signed →
      .setBlock k signed ∈ cs ++ [.setBlock id block] ∨
        ∃ blockRef graph, .setOwnBlock signed blockRef graph ∈ cs ++ [.setBlock id block] ∧
          graph.block = k := by
    intro k signed hk
    rcases h.blocks k signed hk with hk | ⟨blockRef, graph, hg, hk⟩
    · exact .inl (mem_append_left _ hk)
    · exact .inr ⟨blockRef, graph, mem_append_left _ hg, hk⟩
  unfold Db.setBlock
  by_cases hin : (db.included id).isSome = true
  · -- the block was accepted or referenced before
    rw [if_pos hin]
    refine ⟨?_, ?_, h.notIncluded, h.nodup, ?_, h.stored, fun k signed => hkeep⟩
    · intro k
      rw [referenced_setBlock]
      exact h.referenced k
    · intro k
      rw [accepted_setBlock, referenced_setBlock, h.accepted]
      constructor
      · rintro ⟨hacc, href⟩
        exact ⟨.inl hacc, href⟩
      rintro ⟨hacc | heq, href⟩
      · exact ⟨hacc, href⟩
      subst heq
      obtain ⟨v, hv⟩ := Option.isSome_iff_exists.mp hin
      cases v with
      | true => exact absurd ((h.referenced k).mp hv) href
      | false => exact (h.accepted k).mp hv
    · intro g
      rw [ownGraph_setBlock]
      exact h.graphs g
  rw [if_neg hin]
  have hnone := Option.not_isSome_iff_eq_none.mp hin
  have hincluded : ∀ k, db.included.set id false k =
      if k = id then some false else db.included k := fun _ => rfl
  have hfresh : ¬ Referenced cs id := by
    intro href
    rw [(h.referenced id).mpr href] at hnone
    exact absurd hnone (by simp)
  refine ⟨?_, ?_, ?_, ?_, ?_, ?_, ?_⟩
  · intro k
    rw [referenced_setBlock, ← h.referenced]
    show db.included.set id false k = some true ↔ _
    rw [hincluded]
    by_cases hk : k = id
    · rw [if_pos hk, hk, hnone]
      simp
    · rw [if_neg hk]
  · intro k
    rw [accepted_setBlock, referenced_setBlock]
    show db.included.set id false k = some false ↔ _
    rw [hincluded]
    by_cases hk : k = id
    · subst hk
      rw [if_pos rfl]
      exact ⟨fun _ => ⟨.inr rfl, hfresh⟩, fun _ => rfl⟩
    · rw [if_neg hk, h.accepted]
      simp [hk]
  · intro k
    show k ∈ db.notIncluded ++ [id] ↔ db.included.set id false k = some false
    rw [mem_append, h.notIncluded, mem_singleton, hincluded]
    by_cases hk : k = id
    all_goals simp [hk]
  · show (db.notIncluded ++ [id]).Nodup
    rw [nodup_append']
    refine ⟨h.nodup, nodup_singleton id, ?_⟩
    rw [disjoint_singleton, h.notIncluded, hnone]
    simp
  · intro g
    rw [ownGraph_setBlock]
    exact h.graphs g
  · intro k hk
    have hk : db.included.set id false k = some false := hk
    show (db.blocks.set id block k).isSome = true
    rw [PMap.set_apply]
    by_cases heq : k = id
    · rw [if_pos heq]
      rfl
    rw [if_neg heq]
    rw [hincluded, if_neg heq] at hk
    exact h.stored k hk
  intro k signed hk
  rcases PMap.of_set hk with ⟨heq, hsigned⟩ | ⟨_, hk⟩
  · subst heq hsigned
    exact .inl hmem
  · exact hkeep hk

/-- `setOwnBlock` moves the blocks it includes from one side of the index to the other. -/
theorem Indexed.setOwnBlock (h : Indexed cs db) (block blockRef : SignedData) (graph : BlockGraph) :
    Indexed (cs ++ [.setOwnBlock block blockRef graph]) (db.setOwnBlock block blockRef graph) := by
  have hincluded : ∀ k, (db.setOwnBlock block blockRef graph).included k =
      if k ∈ ownIncludes graph then some true else db.included k := fun _ => rfl
  refine ⟨?_, ?_, ?_, ?_, ?_, ?_, ?_⟩
  · intro k
    rw [referenced_setOwnBlock, hincluded]
    by_cases hk : k ∈ ownIncludes graph
    · simp [hk]
    · simp [hk, h.referenced]
  · intro k
    rw [accepted_setOwnBlock, referenced_setOwnBlock, hincluded]
    by_cases hk : k ∈ ownIncludes graph
    · simp [hk]
    · simp [hk, h.accepted]
  · intro k
    show k ∈ db.notIncluded.filter (fun id => id ∉ ownIncludes graph) ↔ _
    rw [mem_filter, h.notIncluded, hincluded]
    by_cases hk : k ∈ ownIncludes graph
    all_goals simp [hk]
  · exact h.nodup.filter _
  · intro g
    show g ∈ db.graphs ++ [graph] ↔ _
    rw [ownGraph_setOwnBlock, mem_append, mem_singleton, h.graphs]
  · intro k hk
    rw [hincluded] at hk
    show (db.blocks.set graph.block block k).isSome = true
    rw [PMap.set_apply]
    split at hk
    · cases hk
    split
    · rfl
    · exact h.stored k hk
  intro k signed hk
  rcases PMap.of_set hk with ⟨heq, hk⟩ | ⟨_, hk⟩
  · subst hk
    exact .inr ⟨blockRef, graph, by simp, heq.symm⟩
  rcases h.blocks k signed hk with hk | ⟨blockRef', graph', hg, hk⟩
  · exact .inl (mem_append_left _ hk)
  · exact .inr ⟨blockRef', graph', mem_append_left _ hg, hk⟩

end Indexed

theorem Db.indexed_calls (cs : List StoreCall) : Indexed cs (Db.empty.calls cs) := by
  induction cs using List.reverseRecOn with
  | nil => exact indexed_empty
  | append_singleton cs call ih =>
    rw [Db.calls_append]
    cases call with
    | setBlock id block => exact ih.setBlock id block
    | setOwnBlock block blockRef graph => exact ih.setOwnBlock block blockRef graph

theorem Referenced.mono {cs post : List StoreCall} {id : BlockID} (h : Referenced cs id) :
    Referenced (cs ++ post) id := by
  obtain ⟨graph, ⟨block, blockRef, hmem⟩, hid⟩ := h
  exact ⟨graph, ⟨block, blockRef, mem_append_left _ hmem⟩, hid⟩

theorem Db.blocks_calls {db : Db} {id : BlockID} (h : (db.blocks id).isSome = true)
    (cs : List StoreCall) : ((db.calls cs).blocks id).isSome = true := by
  refine foldl_inv (fun db : Db => (db.blocks id).isSome = true) h ?_
  intro call _ db hdb
  have hset : ∀ k (block : SignedData), (db.blocks.set k block id).isSome = true := by
    intro k block
    rw [PMap.set_apply]
    split
    · rfl
    · exact hdb
  cases call with
  | setBlock k block =>
    show ((db.setBlock k block).blocks id).isSome = true
    unfold Db.setBlock
    split
    · exact hdb
    · exact hset k block
  | setOwnBlock block blockRef graph => exact hset graph.block block

/-- Where ids name block graphs, the stored ones are those that were recorded. -/
theorem Indexed.getBlockGraph {cs : List StoreCall} {db : Db} (h : Indexed cs db)
    (hkeyed : KeyedGraphs cs) (id : BlockID) :
    Referenced cs id ↔ ∃ key g, db.getBlockGraph key = some g ∧ id ∈ ownIncludes g := by
  constructor
  · rintro ⟨graph, hgraph, hid⟩
    have hsome : (db.getBlockGraph graph.block).isSome = true := by
      unfold Db.getBlockGraph
      rw [find?_isSome]
      exact ⟨graph, mem_reverse.mpr ((h.graphs graph).mpr hgraph), decide_eq_true rfl⟩
    obtain ⟨g, hg⟩ := Option.isSome_iff_exists.mp hsome
    have hmem := mem_reverse.mp (mem_of_find?_eq_some hg)
    have hfound := find?_some hg
    have hblock : g.block = graph.block := of_decide_eq_true hfound
    refine ⟨graph.block, g, hg, ?_⟩
    rw [hkeyed g graph ((h.graphs g).mp hmem) hgraph hblock]
    exact hid
  · rintro ⟨key, g, hg, hid⟩
    have hmem := mem_reverse.mp (mem_of_find?_eq_some hg)
    exact ⟨g, (h.graphs g).mp hmem, hid⟩

/-! ## §3. The blocks read back. -/

/-- SHA-512/256 has no collision among the data `hashed`. -/
def Config.NoCollisions (c : Config) (hashed : Bytes → Prop) : Prop :=
  ∀ a b, hashed a → hashed b → c.wire.hash a = c.wire.hash b → a = b

/-- A signature of the node under which data passes is the one the node makes. -/
def Config.SignsOnce (c : Config) : Prop :=
  ∀ key, c.keys.verify c.nodeID = some key →
    ∀ data sig, key data sig = true → sig = c.keys.sign c.nodeID data

/-- What the dependency graph holds has been read from a block, among the data `hashed`. -/
def Decoded (c : Config) (hashed : Bytes → Prop) (data : BlockData) : Prop :=
  ∃ signed, hashed signed.data ∧ getBlockData c.wire signed = some data

/-- The calls of `processBlock`, for a block that passes the checks, and of `genBlocks`, for a block
made of references out of the dependency graph. -/
inductive Made (c : Config) (hashed : Bytes → Prop) : StoreCall → Prop
  | setBlock {signed : SignedData} {data : BlockData} (h : checkBlock c signed = .ok data)
      (hhashed : hashed signed.data) : Made c hashed (.setBlock data.id signed)
  | setOwnBlock (n : Service) {refs : List BlockData} (h : ∀ r ∈ refs, Decoded c hashed r)
      (hhashed : hashed (n.ownBlock c refs).signed.data) :
      Made c hashed (.setOwnBlock (n.ownBlock c refs).signed (n.ownBlock c refs).blockRef
        (n.ownBlock c refs).graph)

section Made
variable {c : Config} {hashed : Bytes → Prop} {cs : List StoreCall}

theorem Decoded.ref {data : BlockData} (h : Decoded c hashed data) :
    (c.wire.unmarshalRef data.ref.data).map BlockReference.id = some data.id := by
  obtain ⟨signed, _, h⟩ := h
  obtain ⟨block, _, h⟩ := Option.bind_eq_some_iff.mp h
  obtain ⟨prev, _, h⟩ := Option.bind_eq_some_iff.mp h
  obtain ⟨deps, _, h⟩ := Option.bind_eq_some_iff.mp h
  cases h
  rw [c.wire.unmarshal_marshalRef]
  rfl

theorem ownIncludes_ownBlock (n : Service) (refs : List BlockData) :
    ownIncludes (n.ownBlock c refs).graph = refs.map BlockData.id := by
  show List.map Dep.block (List.map _ refs) = _
  rw [map_map]
  rfl

theorem map_id_of_references {refs refs' : List BlockData}
    (hrefs : ∀ r ∈ refs, Decoded c hashed r) (hrefs' : ∀ r ∈ refs', Decoded c hashed r)
    (h : refs.map BlockData.ref = refs'.map BlockData.ref) :
    refs.map BlockData.id = refs'.map BlockData.id := by
  have hread : ∀ {rs : List BlockData}, (∀ r ∈ rs, Decoded c hashed r) →
      (rs.map BlockData.ref).map (fun s => (c.wire.unmarshalRef s.data).map BlockReference.id) =
        (rs.map BlockData.id).map some := by
    intro rs hrs
    rw [map_map, map_map]
    exact map_congr_left fun r hr => (hrs r hr).ref
  have hsome := hread hrefs
  rw [h, hread hrefs'] at hsome
  exact (map_injective_iff.mpr (Option.some_injective _) hsome).symm

/-- **The ids of own blocks name their graphs.** -/
theorem keyedGraphs_of_made (hideal : c.NoCollisions hashed)
    (hmade : ∀ call ∈ cs, Made c hashed call) : KeyedGraphs cs := by
  have hown : ∀ g, OwnGraph cs g → ∃ n refs, (∀ r ∈ refs, Decoded c hashed r) ∧
      hashed (Service.ownBlock c n refs).signed.data ∧ g = (Service.ownBlock c n refs).graph := by
    rintro g ⟨block, blockRef, hmem⟩
    cases hmade _ hmem with
    | setOwnBlock n hrefs hhashed => exact ⟨n, _, hrefs, hhashed, rfl⟩
  intro g g' hg hg' hblock
  obtain ⟨n, refs, hrefs, hhashed, rfl⟩ := hown g hg
  obtain ⟨n', refs', hrefs', hhashed', rfl⟩ := hown g' hg'
  rw [ownIncludes_ownBlock, ownIncludes_ownBlock]
  -- equal ids, equal encodings, equal blocks
  have hdata : (n.ownBlock c refs).signed.data = (n'.ownBlock c refs').signed.data :=
    hideal _ _ hhashed hhashed' (congrArg BlockID.hash hblock)
  have hsame := n.ownBlock_decoded c refs
  rw [hdata, n'.ownBlock_decoded c refs'] at hsame
  injection hsame with hsame
  exact (map_id_of_references hrefs' hrefs (congrArg Block.references hsame)).symm

section Own
variable (n : Service) (refs : List BlockData) {signed : SignedData} {data : BlockData}
  (hdata : checkBlock c signed = .ok data) (hid : (n.ownBlock c refs).graph.block = data.id)
  (hbytes : (n.ownBlock c refs).signed.data = signed.data)
include hdata hid hbytes

/-- A block with the bytes of an own block that passes the checks does so with the signature of the
node. -/
theorem checkBlock_ownBlock :
    ∃ data', checkBlock c (n.ownBlock c refs).signed = .ok data' ∧ data'.id = data.id := by
  obtain ⟨block, key, hadm⟩ := checkBlock_iff.mp hdata
  rw [hadm.id] at hid
  have hnode : c.nodeID = block.node := congrArg BlockID.node hid
  have hround : (n.newBlock c refs).round = block.round := congrArg BlockID.round hid
  refine ⟨{ data with ref := ⟨c.wire.marshalRef (c.wire.refOf signed.data block.node block.round),
    (n.ownBlock c refs).signed.signature⟩ }, checkBlock_iff.mpr ⟨block, key, ?_⟩, rfl⟩
  refine ⟨by rw [hbytes]; exact hadm.decoded, hadm.known, by rw [hbytes], ?_,
    by rw [hbytes]; exact hadm.id, hadm.previous, hadm.references⟩
  have hverify := c.keys.verify_sign block.node key hadm.known
    (c.wire.marshalRef (c.wire.refOf signed.data block.node block.round))
  rw [← hbytes, ← hnode, ← hround] at hverify ⊢
  exact hverify

/-- Where signatures are unique, it is that block. -/
theorem ownBlock_of_id (hsigns : c.SignsOnce) : (n.ownBlock c refs).signed = signed := by
  obtain ⟨block, key, hadm⟩ := checkBlock_iff.mp hdata
  rw [hadm.id] at hid
  have hnode : c.nodeID = block.node := congrArg BlockID.node hid
  have hround : (n.newBlock c refs).round = block.round := congrArg BlockID.round hid
  have hknown := hadm.known
  rw [← hnode] at hknown
  have hsig := hadm.signature
  rw [hadm.ref] at hsig
  have hsignature := hsigns key hknown _ _ hsig
  obtain ⟨bytes, signature⟩ := signed
  dsimp only at hbytes hsignature
  rw [hsignature, ← hbytes, ← hnode, ← hround]
  rfl

end Own

/-- The stored block of an id that is not included: the one that was accepted, or an own block with
the same bytes that was written over it. -/
theorem Indexed.stored_cases {db : Db} (h : Indexed cs db) (hideal : c.NoCollisions hashed)
    (hmade : ∀ call ∈ cs, Made c hashed call) {id : BlockID} (hid : db.included id = some false) :
    ∃ signed, db.blocks id = some signed ∧ (.setBlock id signed ∈ cs ∨
      ∃ (n : Service) (refs : List BlockData) (signed' : SignedData) (data : BlockData),
        signed = (n.ownBlock c refs).signed ∧ .setBlock id signed' ∈ cs ∧
          checkBlock c signed' = .ok data ∧ (n.ownBlock c refs).graph.block = data.id ∧
          data.id = id ∧ (n.ownBlock c refs).signed.data = signed'.data) := by
  obtain ⟨⟨signed', hsigned'⟩, _⟩ := (h.accepted id).mp hid
  obtain ⟨signed, hsigned⟩ := Option.isSome_iff_exists.mp (h.stored id hid)
  refine ⟨signed, hsigned, ?_⟩
  rcases h.blocks id signed hsigned with hmem | ⟨blockRef, graph, hmem, hblock⟩
  · exact .inl hmem
  have hown := hmade _ hmem
  have haccepted := hmade _ hsigned'
  generalize hcall : StoreCall.setOwnBlock signed blockRef graph = call at hown
  cases hown with
  | setBlock => cases hcall
  | setOwnBlock n _ hhashed =>
    injection hcall with hs hr hg
    cases haccepted with
    | setBlock hdata hhashed' =>
      subst hs hg
      -- equal ids, equal bytes
      have hbytes := hideal _ _ hhashed hhashed' (by
        obtain ⟨block, key, hadm⟩ := checkBlock_iff.mp hdata
        have hid := hblock.trans hadm.id
        exact congrArg BlockID.hash hid)
      exact .inr ⟨n, _, signed', _, rfl, hsigned', hdata, hblock, rfl, hbytes⟩

theorem exists_getNotIncluded {db : Db} {R : BlockID → BlockData → Prop} {order : List BlockID}
    (hread : ∀ id ∈ order, ∃ data, (db.blocks id).bind (getBlockData c.wire) = some data ∧
      R id data) :
    ∃ blocks, db.getNotIncluded c.wire order = some blocks ∧ List.Forall₂ R order blocks := by
  unfold Db.getNotIncluded
  induction order with
  | nil => exact ⟨[], rfl, .nil⟩
  | cons id ids ih =>
    obtain ⟨data, hdata, hR⟩ := hread id mem_cons_self
    obtain ⟨blocks, hblocks, hall⟩ := ih fun k hk => hread k (mem_cons_of_mem id hk)
    refine ⟨data :: blocks, ?_, .cons hR hall⟩
    rw [mapM_cons, hdata, hblocks]
    rfl

/-- What `getNotIncluded` reads are blocks that pass the checks, one for each id. -/
theorem Indexed.checked {db : Db} (h : Indexed cs db) (hideal : c.NoCollisions hashed)
    (hmade : ∀ call ∈ cs, Made c hashed call) {order : List BlockID}
    (horder : order.Perm db.notIncluded) :
    ∃ blocks, db.getNotIncluded c.wire order = some blocks ∧
      List.Forall₂ (fun id data => data.id = id ∧ ∃ signed, checkBlock c signed = .ok data) order
        blocks := by
  refine exists_getNotIncluded fun id hid => ?_
  have hfalse := (h.notIncluded id).mp (horder.mem_iff.mp hid)
  obtain ⟨signed, hsigned, hcases⟩ := h.stored_cases hideal hmade hfalse
  rw [hsigned]
  rcases hcases with hmem | ⟨n, refs, signed', data, rfl, _, hdata, hblock, hid, hbytes⟩
  · cases hmade _ hmem with
    | setBlock hdata => exact ⟨_, getBlockData_of_checkBlock hdata, rfl, signed, hdata⟩
  · obtain ⟨data', hdata', hid'⟩ := checkBlock_ownBlock n refs hdata hblock hbytes
    exact ⟨data', getBlockData_of_checkBlock hdata', hid'.trans hid, _, hdata'⟩

/-- **What `getNotIncluded` reads is what `processBlock` handed over**: each accepted block that no
own block includes, once. -/
theorem Indexed.getNotIncluded {db : Db} (h : Indexed cs db) (hideal : c.NoCollisions hashed)
    (hsigns : c.SignsOnce) (hmade : ∀ call ∈ cs, Made c hashed call) {order : List BlockID}
    (horder : order.Perm db.notIncluded) :
    ∃ blocks, db.getNotIncluded c.wire order = some blocks ∧
      List.Forall₂ (fun id data => ∃ signed, .setBlock id signed ∈ cs ∧
        checkBlock c signed = .ok data ∧ data.id = id) order blocks := by
  refine exists_getNotIncluded fun id hid => ?_
  have hfalse := (h.notIncluded id).mp (horder.mem_iff.mp hid)
  obtain ⟨signed, hsigned, hcases⟩ := h.stored_cases hideal hmade hfalse
  have hmem : .setBlock id signed ∈ cs := by
    rcases hcases with hmem | ⟨n, refs, signed', data, rfl, hmem, hdata, hblock, _, hbytes⟩
    · exact hmem
    · rw [ownBlock_of_id n refs hdata hblock hbytes hsigns]
      exact hmem
  rw [hsigned]
  have hcall := hmade _ hmem
  generalize hcalled : StoreCall.setBlock id signed = call at hcall
  cases hcall with
  | setOwnBlock => cases hcalled
  | setBlock hdata =>
    injection hcalled with hid' hs
    subst hs
    exact ⟨_, getBlockData_of_checkBlock hdata, signed, hmem, hdata, hid'.symm⟩

end Made

/-! ## §4. The result. -/

/-- **The inclusion index is exact**, after any calls. A `notIncluded` key is there exactly where
the included key is 0; where the ids of own blocks name their graphs, it is 1 exactly for the blocks
a stored graph includes; a block with an included key of `setBlock` is stored; and 1 never goes back
to 0. For the calls of the service, as long as no two blocks hashed have one digest and a node makes
one signature of a block, `getNotIncluded` returns exactly the accepted blocks that no own block
includes, as they were handed to the graph. -/
theorem inclusion_index (c : Config) (hashed : Bytes → Prop) (cs : List StoreCall) :
    (∀ id, id ∈ (Db.empty.calls cs).notIncluded ↔ (Db.empty.calls cs).included id = some false) ∧
    (KeyedGraphs cs → ∀ id, (Db.empty.calls cs).included id = some true ↔
      ∃ key g, (Db.empty.calls cs).getBlockGraph key = some g ∧ id ∈ ownIncludes g) ∧
    (∀ pre id block post, cs = pre ++ .setBlock id block :: post →
      (Db.empty.calls pre).included id = none → ((Db.empty.calls cs).blocks id).isSome = true) ∧
    (∀ pre post, cs = pre ++ post → ∀ id, (Db.empty.calls pre).included id = some true →
      (Db.empty.calls cs).included id = some true) ∧
    (c.NoCollisions hashed → c.SignsOnce → (∀ call ∈ cs, Made c hashed call) → KeyedGraphs cs ∧
      ∀ order, order.Perm (Db.empty.calls cs).notIncluded →
        order.Nodup ∧ (∀ id, id ∈ order ↔ Accepted cs id ∧ ¬ Referenced cs id) ∧
        ∃ blocks, (Db.empty.calls cs).getNotIncluded c.wire order = some blocks ∧
          List.Forall₂ (fun id data => ∃ signed, .setBlock id signed ∈ cs ∧
            checkBlock c signed = .ok data ∧ data.id = id) order blocks) := by
  have h := Db.indexed_calls cs
  refine ⟨h.notIncluded, ?_, ?_, ?_, ?_⟩
  · intro hkeyed id
    rw [h.referenced]
    exact h.getBlockGraph hkeyed id
  · intro pre id block post hcs hnone
    subst hcs
    have hstored : (((Db.empty.calls pre).setBlock id block).blocks id).isSome = true := by
      unfold Db.setBlock
      rw [if_neg (by rw [hnone]; simp)]
      show ((Db.empty.calls pre).blocks.set id block id).isSome = true
      rw [PMap.set_self]
      rfl
    rw [Db.calls_append]
    exact Db.blocks_calls hstored post
  · intro pre post hcs id htrue
    subst hcs
    rw [h.referenced]
    exact (((Db.indexed_calls pre).referenced id).mp htrue).mono
  intro hideal hsigns hmade
  refine ⟨keyedGraphs_of_made hideal hmade, ?_⟩
  intro order horder
  refine ⟨horder.nodup_iff.mpr h.nodup, ?_, h.getNotIncluded hideal hsigns hmade horder⟩
  intro id
  rw [horder.mem_iff, h.notIncluded, h.accepted]

/-- The digest ends with the encoding. -/
theorem pairOne_noCollisions (hashed : Bytes → Prop) : pairOne.NoCollisions hashed :=
  fun _ _ _ _ h => append_cancel_left h

/-- The node's signature is the only one that passes. -/
theorem pairOne_signsOnce : pairOne.SignsOnce := by
  intro key hkey data sig hsig
  cases hkey
  exact of_decide_eq_true hsig

/-- Node 1 has accepted two blocks of node 2 and stored an own block that includes the first one. -/
def twoAccepted (first second : BlockData) : List StoreCall :=
  let own := (Service.new pairOne).ownBlock pairOne [first]
  [.setBlock first.id firstOfTwo, .setBlock second.id secondOfTwo,
    .setOwnBlock own.signed own.blockRef own.graph]

theorem twoAccepted_made {first second : BlockData}
    (hfirst : checkBlock pairOne firstOfTwo = .ok first)
    (hsecond : checkBlock pairOne secondOfTwo = .ok second) :
    ∀ call ∈ twoAccepted first second, Made pairOne (fun _ => True) call := by
  have hdecoded : ∀ r ∈ [first], Decoded pairOne (fun _ => True) r :=
    forall_mem_singleton.mpr ⟨firstOfTwo, trivial, getBlockData_of_checkBlock hfirst⟩
  exact forall_mem_cons.mpr ⟨.setBlock hfirst trivial, forall_mem_cons.mpr
    ⟨.setBlock hsecond trivial, forall_mem_singleton.mpr (.setOwnBlock _ hdecoded trivial)⟩⟩

theorem notIncluded_of_two {i j : BlockID} (hne : j ≠ i) (a b own blockRef : SignedData)
    {graph : BlockGraph} (hgraph : ownIncludes graph = [i]) :
    (Db.empty.calls [.setBlock i a, .setBlock j b, .setOwnBlock own blockRef graph]).notIncluded =
      [j] := by
  have hgraph : graph.deps.map Dep.block = [i] := hgraph
  simp [Db.calls, Db.call, Db.setBlock, Db.setOwnBlock, Db.empty, hgraph, hne]

/-- After a restart it gets the second one back. -/
theorem inclusion_index_restart : ∃ first second, checkBlock pairOne firstOfTwo = .ok first ∧
    checkBlock pairOne secondOfTwo = .ok second ∧ ∃ blocks,
      (Db.empty.calls (twoAccepted first second)).getNotIncluded pairOne.wire [second.id] =
        some blocks ∧ blocks.map BlockData.id = [second.id] := by
  obtain ⟨first, hfirst, hround⟩ : ∃ data, checkBlock pairOne firstOfTwo = .ok data ∧
    data.id.round = 1 := exists_checked (by decide +kernel)
  obtain ⟨second, hsecond, hround'⟩ : ∃ data, checkBlock pairOne secondOfTwo = .ok data ∧
    data.id.round = 2 := exists_checked (by decide +kernel)
  have hne : second.id ≠ first.id := by
    intro heq
    rw [heq, hround] at hround'
    cases hround'
  obtain ⟨hindex, _, _, _, hread⟩ :=
    inclusion_index pairOne (fun _ => True) (twoAccepted first second)
  have horder : (Db.empty.calls (twoAccepted first second)).notIncluded = [second.id] :=
    notIncluded_of_two hne _ _ _ _ (ownIncludes_ownBlock _ [first])
  obtain ⟨_, _, blocks, hblocks, hall⟩ := (hread (pairOne_noCollisions _) pairOne_signsOnce
    (twoAccepted_made hfirst hsecond)).2 [second.id] (by rw [horder])
  refine ⟨first, second, hfirst, hsecond, blocks, hblocks, ?_⟩
  obtain ⟨data, _, ⟨_, _, _, hid⟩, hnil, heq⟩ := forall₂_cons_left_iff.mp hall
  rw [heq, forall₂_nil_left_iff.mp hnil, map_singleton, hid]

/-- **A second own block under one `Block`** takes the graph of the first one away, and leaves the
included keys of its dependencies at 1. -/
theorem graph_replaced : ∃ cs id, (Db.empty.calls cs).included id = some true ∧
    ∀ key g, (Db.empty.calls cs).getBlockGraph key = some g → id ∉ ownIncludes g := by
  let own : BlockID := ⟨[1], 1, 1⟩
  let dep : BlockID := ⟨[2], 2, 1⟩
  refine ⟨[.setOwnBlock ⟨[], []⟩ ⟨[], []⟩ ⟨own, [⟨dep, [], .zero⟩], .zero⟩,
    .setOwnBlock ⟨[], []⟩ ⟨[], []⟩ ⟨own, [], .zero⟩], dep, rfl, ?_⟩
  intro key g hg
  -- the graph found is the one written last, under the key of both
  have hempty : g = ⟨own, [], .zero⟩ := by
    by_cases hkey : own = key
    · subst hkey
      injection hg with hg
      exact hg.symm
    · exact absurd hg (by
        simp [Db.getBlockGraph, Db.calls, Db.call, Db.setOwnBlock, Db.empty, hkey])
  rw [hempty]
  exact not_mem_nil

end Chainspace.Broadcast
