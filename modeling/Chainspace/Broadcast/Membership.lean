/-
  Chainspace.Broadcast.Membership — does a shard admit only its own members' blocks?

  `processBlock` asks for a verification key, and `node.Run` passes it the keys of all seed nodes of
  the network. So blocks of other shards are admitted too, and their authors count in `deliver`. The
  shard keeps to its members exactly when only members have keys.
-/
import Chainspace.Blockmania.Delivery
import Chainspace.Broadcast.Service

namespace Chainspace.Broadcast

open Chainspace.Lib Chainspace.Blockmania List

/-! ## §1. The property and the condition. -/

def AdmitsMembers (c : Config) : Prop :=
  ∀ signed data, checkBlock c signed = .ok data →
    data.id.node ∈ c.nodes ∧ ∀ dep ∈ data.deps, dep.node ∈ c.nodes

/-- Decisions on file are about members, so a full map is one of all members. -/
def ResolvesMembers (c : Config) (g : Graph) : Prop :=
  ∀ round hashes, g.resolved.lookup round = some hashes →
    (∀ node ∈ hashes, node ∈ c.nodes) ∧
      (hashes.entries.length = g.params.nodeCount ↔ ∀ node ∈ c.nodes, node ∈ hashes)

/-- The consensus graph of the service: whatever it has taken of its feed, its decisions are and
have been about members. -/
def DecidesMembers (c : Config) : Prop :=
  ∀ n, ServiceRun c (fun _ _ => True) n →
    ∀ lastInterpreted grow datas, datas <+: n.feed → ∀ g,
      (∀ current, Reaches c.nodes lastInterpreted grow datas g current → ResolvesMembers c g) ∧
      ∀ ds, Decided c.nodes lastInterpreted grow datas ds g → ∀ d ∈ ds, d.node ∈ c.nodes

def KeysOfMembers (c : Config) : Prop :=
  ∀ node, (c.keys.verify node).isSome = true → node ∈ c.nodes

/-! ## §2. Admission. -/

section Admission
variable {c : Config}

theorem admitsMembers_of_keys (h : KeysOfMembers c) : AdmitsMembers c := by
  intro signed data hdata
  obtain ⟨block, key, hadm⟩ := checkBlock_iff.mp hdata
  constructor
  · rw [hadm.node]
    exact h block.node (by rw [hadm.known]; rfl)
  intro dep hdep
  have hall := hadm.references
  generalize block.references = srefs at hall
  generalize data.deps = deps at hall hdep
  induction hall with
  | nil => cases hdep
  | cons hhead _ ih =>
    rcases mem_cons.mp hdep with heq | hdep
    · obtain ⟨ref, key, hgood, hid⟩ := hhead
      rw [heq, hid]
      exact h ref.node (by rw [hgood.known]; rfl)
    · exact ih hdep

def firstBlock (c : Config) (node : Nat) : SignedData :=
  let data := c.wire.marshalBlock ⟨node, none, [], 1, none⟩
  ⟨data, c.keys.sign node (c.wire.marshalRef (c.wire.refOf data node 1))⟩

/-- **Whoever has a key gets a block admitted.** -/
theorem firstBlock_admitted {node : Nat} {key : Bytes → Bytes → Bool}
    (hkey : c.keys.verify node = some key) :
    ∃ data, checkBlock c (firstBlock c node) = .ok data ∧ data.id.node = node :=
  signBlock_admitted hkey none

theorem keys_of_admitsMembers (h : AdmitsMembers c) : KeysOfMembers c := by
  intro node hnode
  obtain ⟨key, hkey⟩ := Option.isSome_iff_exists.mp hnode
  obtain ⟨data, hdata, heq⟩ := firstBlock_admitted hkey
  exact heq ▸ (h _ data hdata).1

end Admission

/-! ## §3. What the consensus graph is given. -/

def LocalGraph (c : Config) (g : BlockGraph) : Prop := ∀ b ∈ added [g], b.node ∈ c.nodes

structure Local (c : Config) (n : Service) : Prop where
  queue : n.depgraph.AllBlocks (fun b => b.id.node ∈ c.nodes)
  stored : ∀ id signed, n.db.blocks id = some signed → ∀ data,
    getBlockData c.wire signed = some data → data.id.node ∈ c.nodes
  graphs : ∀ g ∈ n.db.graphs, LocalGraph c g
  feed : ∀ g ∈ n.feed, LocalGraph c g
  gen : ∀ own, n.gen = .built own ∨ n.gen = .cached own ∨ n.gen = .stored own →
    LocalGraph c own.graph ∧ ∀ data, getBlockData c.wire own.signed = some data →
      data.id.node ∈ c.nodes

section Invariant
variable {c : Config} {n n' : Service} {input : Input}

theorem getBlockData_node {w : Wire} {signed : SignedData} {block : Block} {data : BlockData}
    (hblock : w.unmarshalBlock signed.data = some block)
    (h : getBlockData w signed = some data) : data.id.node = block.node := by
  obtain ⟨block', hb', h⟩ := Option.bind_eq_some_iff.mp h
  rw [hblock] at hb'
  injection hb' with hb'
  obtain ⟨prev, _, h⟩ := Option.bind_eq_some_iff.mp h
  obtain ⟨deps, _, h⟩ := Option.bind_eq_some_iff.mp h
  injection h with h
  rw [← h, hb']
  rfl

theorem local_new (c : Config) : Local c (.new c) where
  queue := Depgraph.allBlocks_new
  stored := fun _ _ h => absurd h (by simp [Service.new, Db.empty])
  graphs := fun _ h => absurd h (by simp [Service.new, Db.empty])
  feed := fun _ h => absurd h (by simp [Service.new])
  gen := fun _ h => absurd h (by simp [Service.new])

theorem Local.receive (h : Local c n) (hkeys : KeysOfMembers c) {signed : SignedData}
    {data : BlockData} (hdata : checkBlock c signed = .ok data) :
    Local c { n with
      db := n.db.setBlock data.id signed
      depgraph := n.depgraph.add data } := by
  have hnode := (admitsMembers_of_keys hkeys signed data hdata).1
  have hqueue : Depgraph.AllBlocks (fun b => b.id.node ∈ c.nodes) (n.depgraph.add data) :=
    h.queue.add hnode
  unfold Db.setBlock
  split
  · exact ⟨hqueue, h.stored, h.graphs, h.feed, h.gen⟩
  refine ⟨hqueue, ?_, h.graphs, h.feed, h.gen⟩
  intro id signed' hs data' hdata'
  rcases PMap.of_set hs with ⟨_, hs⟩ | ⟨_, hs⟩
  · rw [← hs, getBlockData_of_checkBlock hdata] at hdata'
    cases hdata'
    exact hnode
  · exact h.stored id signed' hs data' hdata'

theorem Local.build (h : Local c n) : Local c (n.build c) := by
  obtain ⟨hrefs, hqueue⟩ := h.queue.getBlocks c.refSizeLimit
  refine ⟨hqueue, h.stored, h.graphs, h.feed, ?_⟩
  intro own hown
  have hown : n.ownBlock c (n.depgraph.getBlocks c.refSizeLimit).1 = own := by
    rcases hown with hown | hown | hown
    · injection hown
    · exact absurd hown (by simp [Service.build])
    · exact absurd hown (by simp [Service.build])
  subst hown
  have hself : c.nodeID ∈ c.nodes := (c.mem_nodes c.nodeID).mpr (.inl rfl)
  constructor
  · intro b hb
    unfold added at hb
    rw [flatMap_singleton] at hb
    rcases mem_append.mp hb with hb | hb
    · obtain ⟨dep, hdep, heq⟩ := mem_map.mp hb
      obtain ⟨r, hr, hdep⟩ := mem_map.mp hdep
      rw [← heq, ← hdep]
      exact hrefs r hr
    · rw [mem_singleton.mp hb]
      exact hself
  · intro data hdata
    rw [getBlockData_node (n.ownBlock_decoded c _) hdata]
    exact hself

theorem Local.store (h : Local c n) {own : OwnBlock} (hgen : n.gen = .cached own) : Local c { n with
      db := n.db.setOwnBlock own.signed own.blockRef own.graph
      gen := .stored own } := by
  obtain ⟨hgraph, hsigned⟩ := h.gen own (.inr (.inl hgen))
  refine ⟨h.queue, ?_, ?_, h.feed, ?_⟩
  · intro id signed hs data hdata
    rcases PMap.of_set hs with ⟨_, hs⟩ | ⟨_, hs⟩
    · exact hsigned data (hs ▸ hdata)
    · exact h.stored id signed hs data hdata
  · exact forall_mem_append.mpr ⟨h.graphs, forall_mem_singleton.mpr hgraph⟩
  intro own' hown'
  have heq : own = own' := by
    rcases hown' with hown' | hown' | hown'
    · cases hown'
    · cases hown'
    · injection hown'
  exact heq ▸ ⟨hgraph, hsigned⟩

theorem Local.finish (h : Local c n) {own : OwnBlock} (hgen : n.gen = .stored own) :
    Local c (n.finish own) := by
  refine ⟨?_, h.stored, h.graphs, ?_, fun own' hown' => absurd hown' (by simp [Service.finish])⟩
  · refine foldl_inv (fun d => Depgraph.AllBlocks (fun b => b.id.node ∈ c.nodes) d) h.queue ?_
    intro id _ d hd
    exact ⟨hd.incoming, hd.pending, hd.blocks⟩
  · exact forall_mem_append.mpr ⟨h.feed,
      forall_mem_singleton.mpr ((h.gen own (.inr (.inr hgen))).1)⟩

theorem Db.mem_replayGraphs {db : Db} {fuel start : Nat} {g : BlockGraph}
    (h : g ∈ db.replayGraphs fuel start) : g ∈ db.graphs := by
  have hbatch : ∀ start, ∀ g ∈ db.getBlockGraphs start 100, g ∈ db.graphs := fun start g hg =>
    mem_of_mem_filter (mem_of_mem_take hg)
  induction fuel generalizing start with
  | zero => exact absurd h (by simp [Db.replayGraphs])
  | succ fuel ih =>
    unfold Db.replayGraphs at h
    dsimp only at h
    split at h
    · exact hbatch start g h
    rcases mem_append.mp h with h | h
    · exact hbatch start g h
    · exact ih h

theorem Local.restart (h : Local c n) {order : List BlockID}
    (hstart : Service.start c n.db order n.made n.published = some n') : Local c n' := by
  obtain ⟨blocks, hblocks, hstart⟩ := Option.bind_eq_some_iff.mp hstart
  cases hstart
  refine ⟨?_, h.stored, h.graphs, fun g hg => h.graphs g (Db.mem_replayGraphs hg),
    fun own hown => absurd hown (by simp)⟩
  refine foldl_inv (fun d => Depgraph.AllBlocks (fun b => b.id.node ∈ c.nodes) d)
    Depgraph.allBlocks_new ?_
  intro data hdata d hd
  obtain ⟨id, _, hget⟩ := mem_of_mapM hblocks hdata
  obtain ⟨signed, hsigned, hget⟩ := Option.bind_eq_some_iff.mp hget
  exact hd.add (h.stored id signed hsigned data hget)

theorem Local.step (h : Local c n) (hkeys : KeysOfMembers c) (hstep : n.Steps c input n') :
    Local c n' := by
  cases hstep with
  | same => exact h
  | receive signed data hdata => exact h.receive hkeys hdata
  | depgraph keep d hd => exact ⟨h.queue.step _ hd, h.stored, h.graphs, h.feed, h.gen⟩
  | build => exact h.build
  | cache own hgen =>
    refine ⟨h.queue, h.stored, h.graphs, h.feed, ?_⟩
    intro own' hown'
    have heq : own = own' := by
      rcases hown' with hown' | hown' | hown'
      · cases hown'
      · injection hown'
      · cases hown'
    exact heq ▸ h.gen own (.inl hgen)
  | store own hgen => exact h.store hgen
  | finish own hgen => exact h.finish hgen
  | aside =>
    exact ⟨h.queue, h.stored, h.graphs, h.feed, h.gen⟩
  | own input blocks n1 hs =>
    rw [hs.others]
    exact ⟨h.queue, h.stored, h.graphs, h.feed, h.gen⟩
  | blocks => exact ⟨h.queue, h.stored, h.graphs, h.feed, h.gen⟩
  | restart order n' _ hstart => exact h.restart hstart

theorem Local.run (hkeys : KeysOfMembers c) (h : ServiceRun c (fun _ _ => True) n) : Local c n := by
  induction h with
  | start => exact local_new c
  | step _ _ hstep ih => exact ih.step hkeys (Service.step_cases hstep)

end Invariant

/-! ## §4. What it decides. -/

theorem entries_length_iff {nodes : List Nat} (hnodup : nodes.Nodup)
    {hashes : AList (fun _ : Nat => Hash)} (hsub : ∀ node ∈ hashes, node ∈ nodes) :
    hashes.entries.length = nodes.length ↔ ∀ node ∈ nodes, node ∈ hashes := by
  have hlen : hashes.entries.length = hashes.keys.length := by simp [AList.keys, List.keys]
  have hkeys : hashes.keys ⊆ nodes := fun node hnode => hsub node hnode
  have hsubperm : hashes.keys.Subperm nodes := subperm_of_subset hashes.keys_nodup hkeys
  rw [hlen]
  constructor
  · intro h node hnode
    exact (hsubperm.perm_of_length_le (Nat.le_of_eq h.symm)).mem_iff.mpr hnode
  intro h
  have hback : nodes.Subperm hashes.keys := subperm_of_subset hnodup (fun node hnode =>
    h node hnode)
  exact Nat.le_antisymm hsubperm.length_le hback.length_le

theorem decidesMembers_of_keys {c : Config} (hkeys : KeysOfMembers c) : DecidesMembers c := by
  intro n hrun lastInterpreted grow datas hfed g
  have hlocal := Local.run hkeys hrun
  have hblocks : ∀ b ∈ added datas, BlockAbout (fun node _ _ => node ∈ c.nodes) (fun _ => True)
      c.nodes b := by
    intro b hb
    obtain ⟨data, hdata, hb⟩ := mem_flatMap.mp hb
    have hgraph := hlocal.feed data (hfed.subset hdata)
    have hmem : b ∈ added [data] := mem_flatMap.mpr ⟨data, mem_cons_self, hb⟩
    exact ⟨hgraph b hmem, trivial, fun x hx => hx⟩
  constructor
  · intro current hreach round hashes hlook
    have habout := (hreach.about (fun _ _ _ h => h) hblocks).1
    have hsub : ∀ node ∈ hashes, node ∈ c.nodes := by
      intro node hnode
      obtain ⟨hash, hhash⟩ := Option.isSome_iff_exists.mp (AList.lookup_isSome.mpr hnode)
      exact habout.decisions.resolved round hashes hlook node hash hhash
    obtain ⟨ds, hds⟩ := hreach.decided
    refine ⟨hsub, ?_⟩
    rw [hds.delivers.nodes]
    exact entries_length_iff c.nodes_nodup hsub
  · intro ds hds d hd
    exact hds.about (fun _ _ _ h => h) hblocks d hd

/-- **A shard keeps to its members exactly when only members have keys.** -/
theorem members_only_iff (c : Config) : AdmitsMembers c ∧ DecidesMembers c ↔ KeysOfMembers c := by
  constructor
  · intro h
    exact keys_of_admitsMembers h.1
  · intro h
    exact ⟨admitsMembers_of_keys h, decidesMembers_of_keys h⟩

/-- Node 1, alone in its shard, admits the first block of node 2 of the other shard. -/
theorem foreign_block_admitted : ¬ (AdmitsMembers loneOne ∧ DecidesMembers loneOne) := by
  intro h
  have hdata : ∃ data, checkBlock loneOne (firstBlock loneOne 2) = .ok data ∧ data.id.node = 2 :=
    firstBlock_admitted rfl
  obtain ⟨data, hdata, hnode⟩ := hdata
  have hmem := (h.1 _ data hdata).1
  rw [hnode] at hmem
  exact absurd hmem (by decide)

end Chainspace.Broadcast
