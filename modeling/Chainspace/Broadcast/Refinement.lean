/-
  Chainspace.Broadcast.Refinement — the service against the models of its graph and its database.

  A run of the service is at once a log of calls of the database, a run of the dependency graph with
  its own blocks, and one of the graph with the order of its output. So what is known of each holds
  in the running service: over all its restarts, the own block graphs include no block twice and
  none before the blocks it needs, a restart finds what it has to, and no accepted block is lost.
-/
import Chainspace.Broadcast.Index
import Chainspace.Broadcast.Release

namespace Chainspace.Broadcast

open Chainspace.Lib Chainspace.Blockmania List

/-! ## §1. Blocks after the blocks they need. -/

/-- No block stands before its previous block or a dependency on another node. -/
def Closed (self : Nat) (deps : List Dep) : Prop :=
  ∀ pre d post, deps = pre ++ d :: post → ∀ id,
    (d.prev.valid = true ∧ id = d.prev) ∨ (id ∈ d.deps ∧ id.node ≠ self) → id ∈ pre.map Dep.block

/-- The place of a block in a block graph. -/
def BlockData.dep (b : BlockData) : Dep := ⟨b.id, b.deps, b.prev⟩

theorem Closed.left {self : Nat} {deps more : List Dep} (h : Closed self (deps ++ more)) :
    Closed self deps := by
  intro pre d post hsplit
  apply h pre d (post ++ more)
  rw [hsplit, append_assoc, cons_append]

theorem Closed.snoc {self : Nat} {deps : List Dep} (h : Closed self deps) {b : BlockData}
    (hb : ∀ id ∈ Depgraph.needs self b, id ∈ deps.map Dep.block) :
    Closed self (deps ++ [b.dep]) := by
  intro pre d post hsplit id hid
  rcases eq_nil_or_concat post with hpost | ⟨post', last, hpost⟩
  · -- the new block
    rw [hpost] at hsplit
    obtain ⟨heq, hd⟩ := append_inj' hsplit rfl
    injection hd with hd
    rw [← heq]
    apply hb
    rw [← hd] at hid
    rcases hid with ⟨hvalid, heq⟩ | ⟨hmem, hne⟩
    · have hvalid : b.prev.valid = true := hvalid
      exact mem_append_left _ (by rw [if_pos hvalid, heq]; exact mem_singleton_self _)
    · exact mem_append_right _ (mem_filter.mpr ⟨hmem, by simpa using hne⟩)
  · rw [hpost, concat_eq_append, ← cons_append, ← append_assoc] at hsplit
    exact h pre d post' (append_inj' hsplit rfl).1 id hid

/-- Blocks that need what stands before them, or one another in order, may follow. -/
theorem Closed.append {self : Nat} {deps : List Dep} (h : Closed self deps) {refs : List BlockData}
    (hrefs : ∀ pre b post, refs = pre ++ b :: post → ∀ id ∈ Depgraph.needs self b,
      id ∈ deps.map Dep.block ∨ id ∈ pre.map BlockData.id) :
    Closed self (deps ++ refs.map BlockData.dep) := by
  induction refs generalizing deps with
  | nil =>
    rw [map_nil, append_nil]
    exact h
  | cons b refs ih =>
    have hfirst : ∀ id ∈ Depgraph.needs self b, id ∈ deps.map Dep.block := by
      intro id hid
      exact (hrefs [] b refs rfl id hid).resolve_right not_mem_nil
    have hrest := ih (h.snoc hfirst) (by
      intro pre b' post hsplit id hid
      rw [map_append, mem_append, or_assoc]
      have hid := hrefs (b :: pre) b' post (by rw [hsplit, cons_append]) id hid
      rw [map_cons, mem_cons] at hid
      exact hid.imp_right (.imp_left mem_singleton.mpr))
    rw [append_assoc] at hrest
    exact hrest

/-! ## §2. The ghost state of a service. -/

/-- Where the own block on its way stands with the blocks it includes. -/
def Gen.recording : Gen → Recording
  | .idle => .recorded []
  | .built own => .taken (own.refs.map BlockData.id)
  | .cached own => .taken (own.refs.map BlockData.id)
  | .stored own => .recorded (own.refs.map BlockData.id)

/-- The places of the blocks it includes, until the database has them. -/
def Gen.deps : Gen → List Dep
  | .built own => own.graph.deps
  | .cached own => own.graph.deps
  | _ => []

/-- **A service with its log of calls and its graph**, where the blocks read and made are among the
data `hashed`. -/
structure Refines (c : Config) (hashed : Bytes → Prop) (n : Service) (cs : List StoreCall)
    (x : Including) : Prop where
  made : ∀ call ∈ cs, Made c hashed call
  db : n.db = { Db.empty.calls cs with sent := n.db.sent, interpreted := n.db.interpreted }
  queue : n.depgraph.AllBlocks (Decoded c hashed)
  own : ∀ own, n.gen = .built own ∨ n.gen = .cached own →
    ∃ n' refs, (∀ r ∈ refs, Decoded c hashed r) ∧
      hashed (Service.ownBlock c n' refs).signed.data ∧ own = Service.ownBlock c n' refs
  run : IncludingRun c.nodeID x
  order : InclusionRun c.nodeID ⟨x.graph, x.included, x.output⟩
  graph : x.graph = n.depgraph
  included : x.included = n.db.isIncluded
  graphs : x.graphs = n.db.graphs.map ownIncludes
  gen : x.gen = n.gen.recording
  returned : ∀ b ∈ x.output, x.included b.id = true ∨ b.id ∈ x.gen.ids
  closed : Closed c.nodeID (n.db.graphs.flatMap BlockGraph.deps ++ n.gen.deps)
  added : ∀ b ∈ x.added, Decoded c hashed b
  kept : c.NoCollisions hashed → ∀ id, n.db.included id = some false → id ∈ x.added.map BlockData.id

theorem Db.setBlock_aside (db : Db) (sent : Option (PMap Nat Nat))
    (interpreted : Option (Nat × Nat)) (id : BlockID) (block : SignedData) :
    Db.setBlock { db with sent := sent, interpreted := interpreted } id block =
      { db.setBlock id block with sent := sent, interpreted := interpreted } := by
  unfold Db.setBlock
  split
  all_goals rfl

theorem Db.isIncluded_setBlock (db : Db) (id : BlockID) (signed : SignedData) :
    (db.setBlock id signed).isIncluded = db.isIncluded ∧
      (db.setBlock id signed).graphs = db.graphs := by
  unfold Db.setBlock
  split
  · exact ⟨rfl, rfl⟩
  next hnone =>
    refine ⟨?_, rfl⟩
    funext k
    show ((db.included.set id false) k).getD false = (db.included k).getD false
    by_cases hk : k = id
    · subst hk
      rw [PMap.set_self, Option.not_isSome_iff_eq_none.mp hnone]
      rfl
    · rw [PMap.set_ne _ _ hk]

theorem Db.included_setBlock {db : Db} {id k : BlockID} {signed : SignedData}
    (h : (db.setBlock id signed).included k = some false) :
    db.included k = some false ∨ k = id := by
  unfold Db.setBlock at h
  split at h
  · exact .inl h
  · by_cases hk : k = id
    · exact .inr hk
    · exact .inl ((PMap.set_ne _ _ hk).symm.trans h)

theorem Db.isIncluded_setOwnBlock (db : Db) (block blockRef : SignedData) (graph : BlockGraph) :
    (db.setOwnBlock block blockRef graph).isIncluded =
      fun id => id ∈ ownIncludes graph || db.isIncluded id := by
  funext id
  show (if id ∈ ownIncludes graph then some true else db.included id).getD false = _
  by_cases hid : id ∈ ownIncludes graph
  · rw [if_pos hid, decide_eq_true hid]
    rfl
  · rw [if_neg hid, decide_eq_false hid]
    rfl

/-- The digest in the id of a block determines what it needs. -/
theorem Decoded.needs_eq {c : Config} {hashed : Bytes → Prop} (hideal : c.NoCollisions hashed)
    {a b : BlockData} (ha : Decoded c hashed a) (hb : Decoded c hashed b) (hid : a.id = b.id) :
    Depgraph.needs c.nodeID a = Depgraph.needs c.nodeID b := by
  obtain ⟨signed, hhashed, ha⟩ := ha
  obtain ⟨signed', hhashed', hb⟩ := hb
  obtain ⟨block, hblock, ha⟩ := Option.bind_eq_some_iff.mp ha
  obtain ⟨block', hblock', hb⟩ := Option.bind_eq_some_iff.mp hb
  obtain ⟨prev, hprev, ha⟩ := Option.bind_eq_some_iff.mp ha
  obtain ⟨prev', hprev', hb⟩ := Option.bind_eq_some_iff.mp hb
  obtain ⟨deps, hdeps, ha⟩ := Option.bind_eq_some_iff.mp ha
  obtain ⟨deps', hdeps', hb⟩ := Option.bind_eq_some_iff.mp hb
  cases ha
  cases hb
  have hdata : signed.data = signed'.data :=
    hideal _ _ hhashed hhashed' (congrArg BlockID.hash hid)
  rw [hdata, hblock'] at hblock
  cases hblock
  rw [hprev'] at hprev
  cases hprev
  rw [hdeps'] at hdeps
  cases hdeps
  rfl

/-- The block that an input brings, or that `genBlocks` makes, is among the data `hashed`. -/
def HashedInput (c : Config) (hashed : Bytes → Prop) (n : Service) : Input → Prop
  | .receive signed => hashed signed.data
  | .genBlocks => n.gen = .idle →
    hashed (n.ownBlock c (n.depgraph.getBlocks c.refSizeLimit).1).signed.data
  | _ => True

theorem hashedInput_true (c : Config) (n : Service) (input : Input) :
    HashedInput c (fun _ => True) n input := by
  cases input with
  | genBlocks => exact fun _ => trivial
  | _ => trivial

/-! ## §3. Every step. -/

section Steps
variable {c : Config} {hashed : Bytes → Prop} {n n' : Service} {cs : List StoreCall}
  {x : Including} {own : OwnBlock}

theorem Refines.recorded (h : Refines c hashed n cs x) {id : BlockID} (hid : x.included id = true) :
    id ∈ (n.db.graphs.flatMap BlockGraph.deps).map Dep.block := by
  have hmem := (h.run.exact.recorded id).mp hid
  rw [h.graphs, ← flatMap_def] at hmem
  rw [map_flatMap]
  exact hmem

/-- **What a restart reads**: the accepted blocks that no own block includes. -/
theorem Refines.notIncluded (h : Refines c hashed n cs x) (hideal : c.NoCollisions hashed)
    {order : List BlockID} (horder : order.Perm n.db.notIncluded) :
    (∀ id, id ∈ order ↔ n.db.included id = some false) ∧
      ∃ blocks, n.db.getNotIncluded c.wire order = some blocks ∧
        Forall₂ (fun id data => data.id = id ∧ ∃ signed, checkBlock c signed = .ok data) order
          blocks := by
  have hindex := Db.indexed_calls cs
  have hdb := h.db
  generalize n.db.sent = sent at hdb
  generalize n.db.interpreted = interpreted at hdb
  rw [hdb] at horder ⊢
  exact ⟨fun id => horder.mem_iff.trans (hindex.notIncluded id),
    hindex.checked hideal h.made horder⟩

/-- What the database holds was hashed. -/
theorem Refines.hashed_block (h : Refines c hashed n cs x) {id : BlockID} {signed : SignedData}
    (hsigned : n.db.blocks id = some signed) : hashed signed.data := by
  rw [h.db] at hsigned
  rcases (Db.indexed_calls cs).blocks id signed hsigned with hmem | ⟨blockRef, graph, hmem, _⟩
  · cases h.made _ hmem with
    | setBlock _ hhashed => exact hhashed
  · cases h.made _ hmem with
    | setOwnBlock n _ hhashed => exact hhashed

theorem Refines.waits (h : Refines c hashed n cs x) (hideal : c.NoCollisions hashed) :
    x.Waits c.nodeID (needsIn c.nodeID x.added) := by
  apply h.run.waits
  intro b hb
  refine needsIn_eq ?_ hb
  exact fun a ha b hb => Decoded.needs_eq hideal (h.added a ha) (h.added b hb)

theorem Refines.receive (h : Refines c hashed n cs x) {signed : SignedData} {data : BlockData}
    (hdata : checkBlock c signed = .ok data) (hhashed : hashed signed.data) :
    Refines c hashed { n with
      db := n.db.setBlock data.id signed
      depgraph := n.depgraph.add data } (cs ++ [.setBlock data.id signed]) (x.add data) := by
  obtain ⟨hincluded, hgraphs⟩ := n.db.isIncluded_setBlock data.id signed
  exact { h with
    made := forall_mem_append.mpr ⟨h.made, forall_mem_singleton.mpr (.setBlock hdata hhashed)⟩
    db := by
      show n.db.setBlock data.id signed = _
      rw [h.db, Db.setBlock_aside, Db.calls_append]
      rfl
    queue := h.queue.add ⟨signed, hhashed, getBlockData_of_checkBlock hdata⟩
    run := h.run.add data
    order := h.order.add data
    graph := by
      show x.graph.add data = _
      rw [h.graph]
    included := h.included.trans hincluded.symm
    graphs := by
      show x.graphs = (n.db.setBlock data.id signed).graphs.map ownIncludes
      rw [hgraphs, h.graphs]
    closed := by
      show Closed c.nodeID ((n.db.setBlock data.id signed).graphs.flatMap _ ++ _)
      rw [hgraphs]
      exact h.closed
    added := forall_mem_append.mpr
      ⟨h.added, forall_mem_singleton.mpr ⟨signed, hhashed, getBlockData_of_checkBlock hdata⟩⟩
    kept := by
      intro hideal id hid
      show id ∈ (x.added ++ [data]).map BlockData.id
      rw [map_append, mem_append]
      exact (Db.included_setBlock hid).imp (h.kept hideal id) mem_singleton.mpr }

/-- `genBlocks` makes a block: it needs only blocks that are recorded, or that it includes. -/
theorem Refines.build (h : Refines c hashed n cs x) (hgen : n.gen = .idle)
    (hhashed : hashed (n.ownBlock c (n.depgraph.getBlocks c.refSizeLimit).1).signed.data) :
    Refines c hashed (n.build c) cs (x.getBlocks c.refSizeLimit) := by
  have hidle : x.gen = .recorded [] := by
    rw [h.gen, hgen]
    rfl
  obtain ⟨hrefs, hqueue⟩ := h.queue.getBlocks c.refSizeLimit
  have hreturned : ∀ id ∈ x.output.map BlockData.id, x.included id = true := by
    intro id hid
    obtain ⟨b, hb, heq⟩ := mem_map.mp hid
    have hb := h.returned b hb
    rw [hidle] at hb
    exact heq ▸ hb.resolve_right not_mem_nil
  exact { h with
    queue := hqueue
    own := by
      intro own hown
      refine ⟨n, _, hrefs, hhashed, ?_⟩
      rcases hown with hown | hown
      · injection hown with hown
        exact hown.symm
      · cases hown
    run := h.run.getBlocks hidle _
    order := h.order.getBlocks _
    graph := by
      show (x.graph.getBlocks c.refSizeLimit).2 = _
      rw [h.graph]
      rfl
    gen := by
      show Recording.taken ((x.graph.getBlocks c.refSizeLimit).1.map BlockData.id) = _
      rw [h.graph]
      rfl
    returned := by
      intro b hb
      rcases mem_append.mp hb with hb | hb
      · exact .inl (hreturned b.id (mem_map_of_mem hb))
      · exact .inr (mem_map_of_mem hb)
    closed := by
      show Closed c.nodeID (n.db.graphs.flatMap BlockGraph.deps ++
        (n.depgraph.getBlocks c.refSizeLimit).1.map BlockData.dep)
      rw [← h.graph]
      apply h.closed.left.append
      intro pre b post hsplit id hid
      -- the blocks returned are the first of the queue
      have htake : (x.graph.getBlocks c.refSizeLimit).1 ++
          (x.graph.getBlocks c.refSizeLimit).2.blocks = x.graph.blocks := take_append_drop _ _
      rw [hsplit, append_assoc, cons_append] at htake
      rcases h.order.ordered.queue pre b _ htake.symm id hid with hid | hid
      · exact .inl (h.recorded hid)
      rw [map_append, mem_append] at hid
      exact hid.imp_left fun hid => h.recorded (hreturned id hid) }

theorem Refines.store (h : Refines c hashed n cs x) (hgen : n.gen = .cached own) :
    Refines c hashed { n with
      db := n.db.setOwnBlock own.signed own.blockRef own.graph
      gen := .stored own } (cs ++ [.setOwnBlock own.signed own.blockRef own.graph])
      (x.setOwnBlock (own.refs.map BlockData.id)) := by
  obtain ⟨n1, refs, hrefs, hhashed, hown⟩ := h.own own (.inr hgen)
  have htaken : x.gen = .taken (own.refs.map BlockData.id) := by
    rw [h.gen, hgen]
    rfl
  have hincludes : ownIncludes own.graph = own.refs.map BlockData.id := by
    rw [hown, ownIncludes_ownBlock]
    rfl
  have hincluded : (x.setOwnBlock (own.refs.map BlockData.id)).included =
      (n.db.setOwnBlock own.signed own.blockRef own.graph).isIncluded := by
    rw [n.db.isIncluded_setOwnBlock, hincludes, ← h.included]
    rfl
  exact { h with
    made := by
      apply forall_mem_append.mpr ⟨h.made, forall_mem_singleton.mpr _⟩
      rw [hown]
      exact .setOwnBlock n1 hrefs hhashed
    db := by
      show n.db.setOwnBlock own.signed own.blockRef own.graph = _
      rw [h.db, Db.calls_append]
      rfl
    own := fun own' hown' => absurd hown' (by simp)
    run := h.run.setOwnBlock htaken
    order := h.order.setOwnBlock _
    included := hincluded
    graphs := by
      show x.graphs ++ [own.refs.map BlockData.id] = (n.db.graphs ++ [own.graph]).map ownIncludes
      rw [h.graphs, map_append, ← hincludes]
      rfl
    gen := rfl
    returned := by
      intro b hb
      rw [x.included_setOwnBlock]
      have hb := h.returned b hb
      rw [htaken] at hb
      exact .inl hb.symm
    closed := by
      have hclosed := h.closed
      rw [hgen] at hclosed
      show Closed c.nodeID ((n.db.graphs ++ [own.graph]).flatMap _ ++ [])
      rw [flatMap_append, flatMap_singleton, append_nil]
      exact hclosed
    kept := by
      intro hideal id hid
      have hid : (if id ∈ ownIncludes own.graph then some true else n.db.included id) =
          some false := hid
      split at hid
      · cases hid
      · exact h.kept hideal id hid }

theorem Refines.finish (h : Refines c hashed n cs x) (hgen : n.gen = .stored own) :
    Refines c hashed (n.finish own) cs { x with
      graph := (own.refs.map BlockData.id).foldl Depgraph.actuallyIncluded x.graph
      gen := .recorded [] } := by
  have hrecorded : x.gen = .recorded (own.refs.map BlockData.id) := by
    rw [h.gen, hgen]
    rfl
  have hleaving := h.run.exact.leaving _ hrecorded
  exact { h with
    queue := by
      refine foldl_inv (fun d => Depgraph.AllBlocks (Decoded c hashed) d) h.queue ?_
      intro id _ d hd
      exact ⟨hd.incoming, hd.pending, hd.blocks⟩
    own := fun own' hown' => absurd hown' (by simp [Service.finish])
    run := h.run.allIncluded hrecorded
    order := by
      refine foldl_inv (fun d => InclusionRun c.nodeID ⟨d, x.included, x.output⟩) h.order ?_
      intro id hid d hd
      exact hd.actuallyIncluded (hleaving id hid)
    graph := by
      show List.foldl Depgraph.actuallyIncluded x.graph _ = _
      rw [h.graph]
      rfl
    gen := rfl
    returned := by
      intro b hb
      have hb := h.returned b hb
      rw [hrecorded] at hb
      exact hb
    closed := by
      have hclosed := h.closed
      rw [hgen] at hclosed
      exact hclosed }

/-- The database of a crashed process, and the blocks read from it. -/
theorem Refines.restart (h : Refines c hashed n cs x) {order : List BlockID}
    (horder : order.Perm n.db.notIncluded)
    (hstart : Service.start c n.db order n.made n.published = some n') :
    ∃ blocks, Refines c hashed n' cs (.start x.included x.graphs blocks) := by
  obtain ⟨blocks, hblocks, hstart⟩ := Option.bind_eq_some_iff.mp hstart
  cases hstart
  have hdecoded : ∀ data ∈ blocks, Decoded c hashed data := by
    intro data hdata
    obtain ⟨id, _, hget⟩ := mem_of_mapM hblocks hdata
    obtain ⟨signed, hsigned, hget⟩ := Option.bind_eq_some_iff.mp hget
    exact ⟨signed, h.hashed_block hsigned, hget⟩
  refine ⟨blocks, h.made, h.db, ?_, fun own hown => absurd hown (by simp), h.run.restart blocks,
    h.order.restart blocks, rfl, h.included, h.graphs, rfl, fun b hb => absurd hb not_mem_nil, ?_,
    hdecoded, ?_⟩
  · refine foldl_inv (fun d => Depgraph.AllBlocks (Decoded c hashed) d) Depgraph.allBlocks_new ?_
    exact fun data hdata d hd => hd.add (hdecoded data hdata)
  · -- a block on its way is lost, and with it what it would have included
    show Closed c.nodeID (n.db.graphs.flatMap BlockGraph.deps ++ [])
    rw [append_nil]
    exact h.closed.left
  · intro hideal id hid
    obtain ⟨hiff, blocks', hread, hall⟩ := h.notIncluded hideal horder
    rw [hblocks] at hread
    cases hread
    have heq : Forall₂ Eq (blocks.map BlockData.id) order :=
      forall₂_map_left_iff.mpr (hall.flip.imp fun _ _ hdata => hdata.1)
    rw [forall₂_eq_eq_eq] at heq
    show id ∈ blocks.map BlockData.id
    rw [heq]
    exact (hiff id).mpr hid

/-- **Every step of the service** is one of its database and its graph, or none. -/
theorem Refines.step (h : Refines c hashed n cs x) {input : Input}
    (hinput : HashedInput c hashed n input) (hstep : n.Steps c input n') :
    ∃ cs' x', Refines c hashed n' cs' x' := by
  cases hstep with
  | same => exact ⟨cs, x, h⟩
  | receive signed data hdata => exact ⟨_, _, h.receive hdata hinput⟩
  | depgraph keep d hd =>
    have hd' := hd
    rw [← h.graph, ← h.included] at hd'
    exact ⟨cs, x.processed c.nodeID keep d, { h with
      queue := h.queue.step _ hd
      run := h.run.process hd'
      order := h.order.process hd'
      graph := rfl }⟩
  | build hgen => exact ⟨cs, _, h.build hgen (hinput hgen)⟩
  | cache own hgen =>
    have hclosed := h.closed
    rw [hgen] at hclosed
    refine ⟨cs, x, { h with
      own := ?_
      gen := by
        rw [h.gen, hgen]
        rfl
      closed := hclosed }⟩
    intro own' hown'
    have heq : own = own' := by simpa using hown'
    exact heq ▸ h.own own (.inl hgen)
  | store own hgen => exact ⟨_, _, h.store hgen⟩
  | finish own hgen => exact ⟨cs, _, h.finish hgen⟩
  | aside input txs sent stored interpreted =>
    refine ⟨cs, x, { h with db := ?_ }⟩
    show { n.db with sent := stored, interpreted := interpreted } = _
    rw [h.db]
  | own input blocks n1 hs =>
    rw [hs.others]
    exact ⟨cs, x, { h with }⟩
  | blocks => exact ⟨cs, x, { h with }⟩
  | restart order n' horder hstart =>
    obtain ⟨blocks, hstart⟩ := h.restart horder hstart
    exact ⟨cs, _, hstart⟩

/-- **The service refines the models of its parts**, whatever its inputs. -/
theorem ServiceRun.refines {ok : Service → Input → Prop}
    (hok : ∀ n input, ok n input → HashedInput c hashed n input) (hrun : ServiceRun c ok n) :
    ∃ cs x, Refines c hashed n cs x := by
  induction hrun with
  | start =>
    refine ⟨[], _, by simp, rfl, Depgraph.allBlocks_new, fun own hown => ?_, .start, .start _ [],
      rfl, rfl, rfl, rfl, fun b hb => absurd hb not_mem_nil, ?_,
      fun b hb => absurd hb not_mem_nil, fun _ id hid => nomatch hid⟩
    · exact absurd hown (by simp [Service.new])
    · intro pre d post hsplit
      exact absurd hsplit.symm (append_ne_nil_of_right_ne_nil pre (cons_ne_nil d post))
  | step _ hinput hstep ih =>
    obtain ⟨cs, x, hx⟩ := ih
    exact hx.step (hok _ _ hinput) (Service.step_cases hstep)

end Steps

/-! ## §4. The results. -/

/-- **The own block graphs of a node are causally closed**: over the whole life of its database, no
block is included twice, and none before its previous block and its dependencies on other nodes. -/
theorem own_graphs_closed {c : Config} {ok : Service → Input → Prop} {n : Service}
    (hrun : ServiceRun c ok n) :
    ((n.db.graphs.flatMap BlockGraph.deps).map Dep.block).Nodup ∧
      Closed c.nodeID (n.db.graphs.flatMap BlockGraph.deps) := by
  obtain ⟨cs, x, h⟩ := hrun.refines fun n input _ => hashedInput_true c n input
  refine ⟨?_, h.closed.left⟩
  have honce := (nodup_append.mp h.run.exact.once).1
  rw [h.graphs, ← flatMap_def] at honce
  rw [map_flatMap]
  exact honce

/-- The second block of node 2 reaches node 1 before the first one; node 1 includes both in order,
crashes, and includes neither again. -/
theorem own_graphs_closed_pair : ∃ n, ServiceRun pairOne (fun _ _ => True) n ∧
    (n.db.graphs.flatMap BlockGraph.deps).map (fun d => d.block.round) = [1, 2] ∧
      n.db.graphs.length = 2 ∧ ((n.db.graphs.flatMap BlockGraph.deps).map Dep.block).Nodup ∧
      Closed pairOne.nodeID (n.db.graphs.flatMap BlockGraph.deps) := by
  obtain ⟨n, hrun, hdeps, hgraphs⟩ := ServiceRun.exists_of_stepWhile pairOne (fun _ _ => true)
    ([.receive secondOfTwo, .depgraph [], .receive firstOfTwo] ++ replicate 7 (.depgraph []) ++
      [.genBlocks, .genBlocks, .genBlocks, .restart [], .receive firstOfTwo, .depgraph [],
        .genBlocks, .genBlocks, .genBlocks])
    (fun _ _ _ => trivial) (P := fun n => (n.db.graphs.flatMap BlockGraph.deps).map
      (fun d => d.block.round) = [1, 2] ∧ n.db.graphs.length = 2) (by decide +kernel)
  exact ⟨n, hrun, hdeps, hgraphs, own_graphs_closed hrun⟩

/-- **A restart never fails**: whatever has happened, as long as no two of the blocks read and made
have one digest, the included key of a block is 1 exactly where
an own block graph includes it and 0 exactly where it is to be included, and `loadState` hands each
of these blocks to the graph once, as it was checked. -/
theorem restart_reads_index {c : Config} {hashed : Bytes → Prop}
    (hideal : c.NoCollisions hashed) {ok : Service → Input → Prop}
    (hok : ∀ n input, ok n input → HashedInput c hashed n input) {n : Service}
    (hrun : ServiceRun c ok n) {order : List BlockID} (horder : order.Perm n.db.notIncluded) :
    (∀ id, n.db.included id = some true ↔ ∃ g ∈ n.db.graphs, id ∈ ownIncludes g) ∧
      (∀ id, id ∈ order ↔ n.db.included id = some false) ∧
      ∃ n' blocks, n.step c (.restart order) = some n' ∧
        n'.depgraph = blocks.foldl Depgraph.add .new ∧
        Forall₂ (fun id data => data.id = id ∧ ∃ signed, checkBlock c signed = .ok data) order
          blocks := by
  obtain ⟨cs, x, h⟩ := hrun.refines hok
  obtain ⟨hiff, blocks, hblocks, hall⟩ := h.notIncluded hideal horder
  refine ⟨?_, hiff, ?_⟩
  · intro id
    have hindex := Db.indexed_calls cs
    rw [h.db]
    apply (hindex.referenced id).trans
    exact exists_congr fun g => and_congr_left' (hindex.graphs g).symm
  · have hstart : ∃ n', Service.start c n.db order n.made n.published = some n' ∧
        n'.depgraph = blocks.foldl Depgraph.add .new := by
      unfold Service.start
      refine ⟨_, Option.bind_eq_some_iff.mpr ⟨blocks, hblocks, rfl⟩, rfl⟩
    obtain ⟨n', hn', hgraph⟩ := hstart
    refine ⟨n', blocks, ?_, hgraph, hall⟩
    show (if order.Perm n.db.notIncluded then _ else none) = some n'
    rw [if_pos horder]
    exact hn'

/-- Node 1 crashes before it includes the first block of node 2, and has it again. -/
theorem restart_reads_index_pair : ∃ n, ServiceRun pairOne (fun _ _ => True) n ∧
    n.db.notIncluded.length = 1 ∧ ∃ n', n.step pairOne (.restart n.db.notIncluded) = some n' := by
  obtain ⟨n, hrun, hlen⟩ := ServiceRun.exists_of_stepWhile pairOne (fun _ _ => true)
    [.receive firstOfTwo, .genBlocks, .genBlocks, .genBlocks] (fun _ _ _ => trivial)
    (P := fun n => n.db.notIncluded.length = 1) (by decide +kernel)
  obtain ⟨_, _, n', _, hn', _⟩ := restart_reads_index (pairOne_noCollisions fun _ => True)
    (fun n input _ => hashedInput_true pairOne n input) hrun (.refl _)
  exact ⟨n, hrun, hlen, n', hn'⟩

/-- **No accepted block is lost**: as long as no two of the blocks read and made have one digest, a
block that was accepted and is in no own
block graph is still to be processed, queued, on its way into an own block, or pending; and once
`process` has nothing left to do, a pending block needs one that is neither included, queued nor on
its way. -/
theorem accepted_kept {c : Config} {hashed : Bytes → Prop} (hideal : c.NoCollisions hashed)
    {ok : Service → Input → Prop} (hok : ∀ n input, ok n input → HashedInput c hashed n input)
    {n : Service} (hrun : ServiceRun c ok n) {id : BlockID} (hid : n.db.included id = some false) :
    id ∈ (n.depgraph.incoming ++ n.depgraph.blocks).map BlockData.id ∨ id ∈ n.gen.recording.ids ∨
      ∃ b, n.depgraph.pending id = some b ∧ b.id = id ∧ (n.depgraph.Drained →
        ∃ dep ∈ Depgraph.needs c.nodeID b, n.db.included dep ≠ some true ∧
          dep ∉ n.depgraph.blocks.map BlockData.id ∧ dep ∉ n.gen.recording.ids) := by
  obtain ⟨cs, x, h⟩ := hrun.refines hok
  obtain ⟨b, hb, heq⟩ := mem_map.mp (h.kept hideal id hid)
  subst heq
  have hwaits := h.waits hideal
  rw [← h.graph, ← h.gen]
  have hincluded : ∀ k, x.included k = true ↔ n.db.included k = some true := by
    intro k
    rw [h.included]
    show (n.db.included k).getD false = true ↔ _
    cases n.db.included k with
    | none => simp
    | some inc => simp
  by_cases hs : x.Settled b.id
  · -- it is queued, or has been returned and not been recorded yet
    have hnot : x.included b.id ≠ true := by
      rw [ne_eq, hincluded, hid]
      simp
    have hmem := hs.resolve_left hnot
    rw [map_append, mem_append] at hmem
    rcases hmem with hout | hqueue
    · obtain ⟨b', hb', heq⟩ := mem_map.mp hout
      have hreturned := h.returned b' hb'
      rw [heq] at hreturned
      exact .inr (.inl (hreturned.resolve_left hnot))
    · rw [map_append]
      exact .inl (mem_append_right _ hqueue)
  rcases hwaits.kept b hb with hin | hs' | hpending
  · rw [map_append]
    exact .inl (mem_append_left _ (mem_map_of_mem hin))
  · exact absurd hs' hs
  obtain ⟨b', hb'⟩ := Option.isSome_iff_exists.mp hpending
  obtain ⟨hadded, heq⟩ := hwaits.pending _ _ hb'
  refine .inr (.inr ⟨b', hb', heq, fun hdrained => ?_⟩)
  rcases hwaits.due b.id hpending hs with ⟨dep, hdep, hsdep⟩ | hdue
  · rw [← heq, ← hwaits.needs b' hadded] at hdep
    rw [Including.Settled, not_or, map_append, mem_append, not_or] at hsdep
    refine ⟨dep, hdep, fun h' => hsdep.1 ((hincluded dep).mpr h'), hsdep.2.2, fun hgen => ?_⟩
    exact hsdep.2.1 (h.run.exact.taken dep hgen)
  · unfold Depgraph.Due at hdue
    rw [hdrained.1] at hdue
    exact hdue.elim

/-- Node 1 is making a block with the first block of node 2. -/
theorem accepted_kept_pair : ∃ n id, ServiceRun pairOne (fun _ _ => True) n ∧
    n.db.included id = some false ∧ id ∈ n.gen.recording.ids := by
  obtain ⟨n, hrun, id, _, hid, hempty, hnone⟩ := ServiceRun.exists_of_stepWhile pairOne (fun _ _ => true)
    [.receive firstOfTwo, .depgraph [], .genBlocks] (fun _ _ _ => trivial)
    (P := fun n => ∃ id ∈ n.db.notIncluded, n.db.included id = some false ∧
      n.depgraph.incoming ++ n.depgraph.blocks = [] ∧ n.depgraph.pending id = none)
    (by decide +kernel)
  refine ⟨n, id, hrun, hid, ?_⟩
  rcases accepted_kept (pairOne_noCollisions fun _ => True)
    (fun n input _ => hashedInput_true pairOne n input) hrun hid with hqueue | hgen | ⟨b, hb, _⟩
  · rw [hempty] at hqueue
    cases hqueue
  · exact hgen
  · rw [hnone] at hb
    cases hb

end Chainspace.Broadcast
