/-
  Chainspace.Broadcast.Acceptance — do honest peers accept the blocks a node makes?

  Not if a peer shows the node one of its own blocks: `processBlock` admits it, the dependency graph
  queues it, and the next block refers to it, which every honest node refuses, and all later ones.
  If no admitted block is in the node's own name, every block it makes is accepted by every node
  with the same keys, over all restarts.
-/
import Chainspace.Broadcast.Service

namespace Chainspace.Broadcast

open Chainspace.Lib Chainspace.Blockmania List

/-! ## §1. The property and the condition. -/

/-- Every node with the same keys admits the block, which refers to other nodes only. -/
structure AcceptedBy (c : Config) (signed : SignedData) : Prop where
  admitted : ∀ c' : Config, c'.wire = c.wire → c'.keys = c.keys →
    ∃ data, checkBlock c' signed = .ok data
  references : ∀ block, c.wire.unmarshalBlock signed.data = some block →
    ∀ sref ∈ block.references, ∀ ref, c.wire.unmarshalRef sref.data = some ref →
      ref.node ≠ c.nodeID

def OwnBlocksAccepted (c : Config) (n : Service) : Prop := ∀ b ∈ n.made, AcceptedBy c b

def NoEcho (c : Config) (input : Input) : Prop :=
  ∀ signed data, input = .receive signed → checkBlock c signed = .ok data →
    data.id.node ≠ c.nodeID

/-! ## §2. What a new block is made of. -/

def Foreign (c : Config) (data : BlockData) : Prop :=
  (∃ signed, checkBlock c signed = .ok data) ∧ data.id.node ≠ c.nodeID

def signedRef (c : Config) (ref : BlockReference) : SignedData :=
  ⟨c.wire.marshalRef ref, c.keys.sign c.nodeID (c.wire.marshalRef ref)⟩

/-- The reference to the previous block, for a node that has reached `round`. -/
def GoodPrevref (c : Config) (prevref : Option SignedData) (round : Nat) : Prop :=
  round < 2 ^ 64 ∧
    (round ≠ 0 → ∃ hash, prevref = some (signedRef c ⟨hash, c.nodeID, round⟩))

section NewBlock
variable {c : Config}

theorem Foreign.goodReference {data : BlockData} (h : Foreign c data) {c' : Config}
    (hwire : c'.wire = c.wire) (hkeys : c'.keys = c.keys) {block : Block}
    (hnode : block.node = c.nodeID) :
    ∃ ref key, GoodReference c' block data.ref ref key ∧ data.id = ref.id := by
  obtain ⟨⟨signed, hdata⟩, hother⟩ := h
  obtain ⟨block0, key, hadm⟩ := checkBlock_iff.mp hdata
  refine ⟨c.wire.refOf signed.data block0.node block0.round, key, ⟨?_, ?_, hadm.signature, ?_⟩,
    hadm.id⟩
  · rw [hwire, hadm.ref]
    exact c.wire.unmarshal_marshalRef _
  · rw [hkeys]
    exact hadm.known
  rw [hnode]
  rw [hadm.node] at hother
  exact hother

theorem GoodPrevref.checkPrevious {n : Service} (h : GoodPrevref c n.prevref n.round)
    {c' : Config} (hwire : c'.wire = c.wire) {key : Bytes → Bytes → Bool}
    (hkey : c.keys.verify c.nodeID = some key) (refs : List BlockData) :
    ∃ prev, Broadcast.checkPrevious c' key (n.newBlock c refs) = .ok prev := by
  by_cases h1 : (n.newBlock c refs).round = 1
  · exact ⟨.zero, checkPrevious_iff.mpr (.inl ⟨h1, rfl⟩)⟩
  have hne : n.round ≠ 0 := by
    intro h0
    apply h1
    show (n.round + 1) % 2 ^ 64 = 1
    omega
  obtain ⟨hash, hprevref⟩ := h.2 hne
  refine ⟨_, checkPrevious_iff.mpr (.inr ⟨h1, _, ⟨hash, c.nodeID, n.round⟩,
    ⟨hprevref, c.keys.verify_sign c.nodeID key hkey _, ?_, rfl, rfl⟩, rfl⟩)⟩
  rw [hwire]
  exact c.wire.unmarshal_marshalRef _

/-- **A new block of foreign references is accepted.** -/
theorem ownBlock_accepted {n : Service} (hprev : GoodPrevref c n.prevref n.round)
    {refs : List BlockData} (hrefs : ∀ r ∈ refs, Foreign c r) :
    AcceptedBy c (n.ownBlock c refs).signed := by
  obtain ⟨key, hkey⟩ := Option.isSome_iff_exists.mp c.own_key
  constructor
  · intro c' hwire hkeys
    obtain ⟨prev, hcheck⟩ := hprev.checkPrevious hwire hkey refs
    refine ⟨⟨refs.map BlockData.id, (n.ownBlock c refs).graph.block, prev,
      (n.ownBlock c refs).blockRef⟩, checkBlock_iff.mpr ⟨n.newBlock c refs, key, ?_⟩⟩
    refine ⟨?_, ?_, ?_, c.keys.verify_sign c.nodeID key hkey _, ?_, hcheck, ?_⟩
    · rw [hwire]
      exact n.ownBlock_decoded c refs
    · rw [hkeys]
      exact hkey
    · rw [hwire]
      rfl
    · rw [hwire]
      rfl
    show List.Forall₂ _ (refs.map BlockData.ref) (refs.map BlockData.id)
    rw [forall₂_map_left_iff, forall₂_map_right_iff, forall₂_same]
    intro r hr
    exact (hrefs r hr).goodReference hwire hkeys rfl
  intro block hblock sref hsref ref href
  rw [n.ownBlock_decoded c refs] at hblock
  cases hblock
  obtain ⟨r, hr, heq⟩ := mem_map.mp hsref
  obtain ⟨ref', key', hgood, _⟩ :=
    (hrefs r hr).goodReference rfl rfl (show (n.newBlock c refs).node = c.nodeID from rfl)
  rw [← heq, hgood.decoded] at href
  cases href
  exact hgood.other

end NewBlock

/-! ## §3. Every reachable state. -/

def GoodGen (c : Config) : Gen → Prop
  | .idle => True
  | .built own | .cached own | .stored own =>
    own.graph.block.node = c.nodeID ∧
      GoodPrevref c (some own.blockRef) own.graph.block.round

/-- The queue and the blocks not included are foreign, the last block can be continued, and the own
blocks are accepted. -/
structure Acceptable (c : Config) (n : Service) : Prop where
  queue : n.depgraph.AllBlocks (Foreign c)
  foreign : ∀ id ∈ n.db.notIncluded, id.node ≠ c.nodeID
  stored : ∀ id ∈ n.db.notIncluded, ∀ signed, n.db.blocks id = some signed →
    ∃ data, checkBlock c signed = .ok data ∧ data.id.node ≠ c.nodeID
  last : GoodPrevref c (n.db.last.map LastRound.ref) ((n.db.last.map LastRound.round).getD 0)
  prev : GoodPrevref c n.prevref n.round
  gen : GoodGen c n.gen
  made : OwnBlocksAccepted c n

section Invariant
variable {c : Config} {n n' : Service} {input : Input}

theorem acceptable_new (c : Config) : Acceptable c (.new c) where
  queue := Depgraph.allBlocks_new
  foreign := fun _ h => absurd h (by simp [Service.new, Db.empty])
  stored := fun _ h => absurd h (by simp [Service.new, Db.empty])
  last := ⟨show 0 < 2 ^ 64 by decide, fun h => absurd rfl h⟩
  prev := ⟨show 0 < 2 ^ 64 by decide, fun h => absurd rfl h⟩
  gen := trivial
  made := fun _ h => absurd h (by simp [Service.new])

section
variable (h : Acceptable c n)
include h

theorem Acceptable.receive {signed : SignedData} {data : BlockData}
    (hok : NoEcho c (.receive signed)) (hdata : checkBlock c signed = .ok data) :
    Acceptable c { n with
      db := n.db.setBlock data.id signed
      depgraph := n.depgraph.add data } := by
  have hother := hok signed data rfl hdata
  have hqueue : Depgraph.AllBlocks (Foreign c) (n.depgraph.add data) :=
    h.queue.add ⟨⟨signed, hdata⟩, hother⟩
  unfold Db.setBlock
  split
  · exact ⟨hqueue, h.foreign, h.stored, h.last, h.prev, h.gen, h.made⟩
  refine ⟨hqueue, ?_, ?_, h.last, h.prev, h.gen, h.made⟩
  · exact forall_mem_append.mpr ⟨h.foreign, forall_mem_singleton.mpr hother⟩
  intro id hid signed' hs
  rcases PMap.of_set hs with ⟨_, hs⟩ | ⟨hne, hs⟩
  · exact ⟨data, hs ▸ hdata, hother⟩
  rcases mem_append.mp hid with hid | hid
  · exact h.stored id hid signed' hs
  · exact absurd (mem_singleton.mp hid) hne

theorem Acceptable.build : Acceptable c (n.build c) := by
  obtain ⟨hrefs, hqueue⟩ := h.queue.getBlocks c.refSizeLimit
  refine ⟨hqueue, h.foreign, h.stored, h.last, h.prev, ⟨rfl, ?_⟩, ?_⟩
  · exact ⟨Nat.mod_lt _ (by decide), fun _ => ⟨_, rfl⟩⟩
  intro b hb
  rcases mem_cons.mp hb with hb | hb
  · rw [hb]
    exact ownBlock_accepted h.prev hrefs
  · exact h.made b hb

theorem Acceptable.store {own : OwnBlock} (hgen : n.gen = .cached own) :
    Acceptable c { n with
      db := n.db.setOwnBlock own.signed own.blockRef own.graph
      gen := .stored own } := by
  have hg := h.gen
  rw [hgen] at hg
  refine ⟨h.queue, ?_, ?_, hg.2, h.prev, hg, h.made⟩
  · intro id hid
    exact h.foreign id (mem_of_mem_filter hid)
  intro id hid signed hs
  have hid := mem_of_mem_filter hid
  have hne : id ≠ own.graph.block := by
    intro heq
    exact h.foreign id hid (heq ▸ hg.1)
  exact h.stored id hid signed (by rwa [← PMap.set_ne n.db.blocks own.signed hne])

theorem Acceptable.finish {own : OwnBlock} (hgen : n.gen = .stored own) :
    Acceptable c (n.finish own) := by
  have hg := h.gen
  rw [hgen] at hg
  refine ⟨?_, h.foreign, h.stored, h.last, hg.2, trivial, h.made⟩
  refine foldl_inv (fun d => Depgraph.AllBlocks (Foreign c) d) h.queue ?_
  intro id _ d hd
  exact ⟨hd.incoming, hd.pending, hd.blocks⟩

theorem Acceptable.restart {order : List BlockID} (hperm : order.Perm n.db.notIncluded)
    (hstart : Service.start c n.db order n.made n.published = some n') : Acceptable c n' := by
  obtain ⟨blocks, hblocks, hstart⟩ := Option.bind_eq_some_iff.mp hstart
  cases hstart
  refine ⟨?_, h.foreign, h.stored, h.last, h.last, trivial, h.made⟩
  refine foldl_inv (fun d => Depgraph.AllBlocks (Foreign c) d) Depgraph.allBlocks_new ?_
  intro data hdata d hd
  -- What the database returns was admitted, and reads back as it was.
  obtain ⟨id, hid, hget⟩ := mem_of_mapM hblocks hdata
  obtain ⟨signed, hsigned, hget⟩ := Option.bind_eq_some_iff.mp hget
  obtain ⟨data', hdata', hother⟩ := h.stored id (hperm.mem_iff.mp hid) signed hsigned
  rw [getBlockData_of_checkBlock hdata'] at hget
  cases hget
  exact hd.add ⟨⟨signed, hdata'⟩, hother⟩

theorem Acceptable.step (hok : NoEcho c input) (hstep : n.Steps c input n') : Acceptable c n' := by
  cases hstep with
  | same => exact h
  | receive signed data hdata => exact h.receive hok hdata
  | depgraph keep d hd =>
    exact ⟨h.queue.step _ hd, h.foreign, h.stored, h.last, h.prev, h.gen, h.made⟩
  | build => exact h.build
  | cache own hgen =>
    have hg := h.gen
    rw [hgen] at hg
    exact ⟨h.queue, h.foreign, h.stored, h.last, h.prev, hg, h.made⟩
  | store own hgen => exact h.store hgen
  | finish own hgen => exact h.finish hgen
  | aside | blocks =>
    exact ⟨h.queue, h.foreign, h.stored, h.last, h.prev, h.gen, h.made⟩
  | own input blocks n1 hs =>
    rw [hs.others]
    exact ⟨h.queue, h.foreign, h.stored, h.last, h.prev, h.gen, h.made⟩
  | restart order n' hperm hstart => exact h.restart hperm hstart

end

theorem Acceptable.run (h : ServiceRun c (fun _ input => NoEcho c input) n) : Acceptable c n := by
  induction h with
  | start => exact acceptable_new c
  | step _ hok hstep ih => exact ih.step hok (Service.step_cases hstep)

end Invariant

/-- **The blocks of a node are accepted** by every node with the same keys, in every run that admits
no block in the node's own name. -/
theorem own_blocks_accepted {c : Config} {n : Service}
    (h : ServiceRun c (fun _ input => NoEcho c input) n) : OwnBlocksAccepted c n :=
  (Acceptable.run h).made

/-- The first block of node 2, which has nothing to refer to. -/
def firstOfTwo : SignedData :=
  ((Service.new (pairConfig 2 [1] (.inr rfl))).ownBlock (pairConfig 2 [1] (.inr rfl)) []).signed

/-- Node 2 after its first block. -/
def afterFirst : Service :=
  let n := Service.new (pairConfig 2 [1] (.inr rfl))
  n.finish (n.ownBlock (pairConfig 2 [1] (.inr rfl)) [])

/-- Its second block, on top of the first one. -/
def secondOfTwo : SignedData := (afterFirst.ownBlock (pairConfig 2 [1] (.inr rfl)) []).signed

theorem exists_checked {c : Config} {signed : SignedData} {round : Nat}
    (heval : (checkBlock c signed).toOption.any (fun data => data.id.round = round) = true) :
    ∃ data, checkBlock c signed = .ok data ∧ data.id.round = round := by
  generalize checkBlock c signed = checked at heval
  cases checked with
  | error => cases heval
  | ok data => exact ⟨data, rfl, of_decide_eq_true heval⟩

def noEcho (c : Config) : Input → Bool
  | .receive signed =>
    match checkBlock c signed with
    | .ok data => data.id.node ≠ c.nodeID
    | .error _ => true
  | _ => true

theorem noEcho_ok (c : Config) (_ : Service) (input : Input) (h : noEcho c input = true) :
    NoEcho c input := by
  intro signed data hinput hdata
  subst hinput
  simp only [noEcho, hdata] at h
  exact of_decide_eq_true h

/-- Node 1 refers to the first block of node 2, restarts and goes on. -/
theorem own_blocks_accepted_pair :
    ∃ n, ServiceRun pairOne (fun _ input => NoEcho pairOne input) n ∧ n.made.length = 3 ∧
      OwnBlocksAccepted pairOne n := by
  obtain ⟨n, hrun, hlen⟩ := ServiceRun.exists_of_stepWhile pairOne (fun _ => noEcho pairOne)
    [.genBlocks, .genBlocks, .genBlocks, .genBlocks, .receive firstOfTwo, .depgraph [],
      .genBlocks, .genBlocks, .genBlocks, .genBlocks, .restart [], .genBlocks]
    (noEcho_ok pairOne) (P := fun n => n.made.length = 3) (by decide +kernel)
  exact ⟨n, hrun, hlen, own_blocks_accepted hrun⟩

def firstOfOne : SignedData := ((Service.new pairOne).ownBlock pairOne []).signed

/-- **An echoed block cuts the node off**: node 2 sends node 1's block back, and refuses the next
one, which refers to it. -/
theorem echoed_block_refused :
    ∃ n, ServiceRun pairOne (fun _ _ => True) n ∧ ¬ OwnBlocksAccepted pairOne n ∧
      ∃ b ∈ n.made, checkBlock (pairConfig 2 [1] (.inr rfl)) b = .error (.sameNode 0 2 1) := by
  obtain ⟨n, hrun, b, hb, hcheck⟩ := ServiceRun.exists_of_stepWhile pairOne (fun _ _ => true)
    [.genBlocks, .genBlocks, .genBlocks, .genBlocks, .receive firstOfOne, .depgraph [], .genBlocks]
    (fun _ _ _ => trivial) (P := fun n => ∃ b ∈ n.made,
      checkBlock (pairConfig 2 [1] (.inr rfl)) b = .error (.sameNode 0 2 1)) (by decide +kernel)
  refine ⟨n, hrun, ?_, b, hb, hcheck⟩
  intro h
  obtain ⟨data, hdata⟩ := (h b hb).admitted (pairConfig 2 [1] (.inr rfl)) rfl rfl
  rw [hdata] at hcheck
  cases hcheck

end Chainspace.Broadcast
