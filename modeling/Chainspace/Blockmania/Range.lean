/-
  Chainspace.Blockmania.Range — are the vote sets indexed within bounds?

  A vote set has one bit for each member of the shard, rounded up to whole words, but a vote is
  filed under the voter's node ID, and the IDs of a shard are `shardCount` apart. The sets are
  indexed within bounds exactly when the highest ID, `s + (shardSize - 1) * shardCount`, is below
  the number of bits.
-/
import Chainspace.Blockmania.About
import Chainspace.Network.Topology

namespace Chainspace.Blockmania

open Chainspace.Lib Chainspace.Network

/-! ## §1. One access. -/

/-- The four accesses to a vote set with index `v` stay within bounds. -/
structure Bitset.InRange (b : Bitset) (v : Nat) : Prop where
  setPrepare : (b.setPrepare v).isSome
  setCommit : (b.setCommit v).isSome
  hasPrepare : (b.hasPrepare v).isSome
  hasCommit : (b.hasCommit v).isSome

theorem Bitset.Sized.inRange_iff {words : Nat} {b : Bitset} (hb : b.Sized words) (v : Nat) :
    b.InRange v ↔ v / 64 < words := by
  constructor
  · intro h
    have hset := h.hasPrepare
    rw [Bitset.hasPrepare, hasBit_isSome, hb.prepares] at hset
    exact hset
  intro hv
  have hp : v / 64 < b.prepares.length := by rw [hb.prepares]; exact hv
  have hc : v / 64 < b.commits.length := by rw [hb.commits]; exact hv
  refine ⟨?_, ?_, ?_, ?_⟩
  · rw [Bitset.setPrepare, Option.isSome_map]
    exact (setBit_isSome _ v).mpr hp
  · rw [Bitset.setCommit, Option.isSome_map]
    exact (setBit_isSome _ v).mpr hc
  · exact (hasBit_isSome _ v).mpr hp
  · exact (hasBit_isSome _ v).mpr hc

/-! ## §2. One call. -/

section Call
variable {p : Params} {h : Heap} {s : State} {words : Nat}

def NoPanic {α : Type} (x : Except Halt α) : Prop :=
  Outcome (fun _ => True) (fun e => e ≠ Halt.indexOutOfRange) x

theorem noPanic_index {α : Type} {x : Option α} (hx : x.isSome) :
    Outcome (fun a => x = some a) (fun e => e ≠ Halt.indexOutOfRange) (index x) := by
  cases x with
  | none => cases hx
  | some => exact rfl

/-- **A call on sized vote sets with members as voters does not panic.** -/
theorem react_noPanic {nodes : List Nat} {P : Nat → Nat → Hash → Prop}
    (hw : (p.nodeCount + 63) >>> 6 = words) (hrange : ∀ v ∈ nodes, v / 64 < words)
    (hs : About P words h s) {sender receiver : Nat} (origin : BlockID) {msg : Message}
    (hsender : sender ∈ nodes) (hreceiver : receiver ∈ nodes)
    (hvoter : ∀ x, msg.voter = some x → x ∈ nodes) :
    NoPanic (react p h s sender receiver origin msg) := by
  have hget : ∀ (k : NodeRound) (pp : PrePrepare),
      ((s.touch k).getBitset p.nodeCount pp).Sized words := by
    intro k pp
    have heq : (s.touch k).getBitset p.nodeCount pp = s.getBitset p.nodeCount pp := by
      simp [State.getBitset]
    exact heq ▸ hs.getBitset hw pp
  have hin : ∀ {b : Bitset} {v : Nat}, b.Sized words → v ∈ nodes → b.InRange v := by
    intro b v hb hv
    exact (hb.inRange_iff v).mpr (hrange v hv)
  unfold react
  split
  · trivial
  rw [State.getView_eq]
  cases msg with
  | prePrepare m =>
    show NoPanic (onPrePrepare p h _ _ sender receiver m)
    unfold onPrePrepare
    split
    · trivial
    dsimp only
    split
    · trivial
    have hb := hget ⟨m.node, m.round⟩ m
    refine Outcome.bind (noPanic_index (hin hb hsender).setPrepare) ?_
    intro b _ hset
    have hb' := hb.setPrepare hset
    refine Outcome.bind (noPanic_index (hin hb' hreceiver).setPrepare) ?_
    intro b' _ _
    trivial
  | prepare m =>
    show NoPanic (onPrepare p h _ _ receiver m)
    unfold onPrepare
    split
    · trivial
    have hb := hget ⟨m.node, m.round⟩ m.pre
    refine Outcome.bind (noPanic_index (hin hb (hvoter _ rfl)).setPrepare) ?_
    intro b _ hset
    have hb' := hb.setPrepare hset
    split
    · trivial
    split
    · trivial
    refine Outcome.bind (noPanic_index (hin hb' hreceiver).hasCommit) ?_
    intro has _ _
    split
    · trivial
    refine Outcome.bind (noPanic_index (hin hb' hreceiver).setCommit) ?_
    intro b'' _ _
    trivial
  | commit m =>
    show NoPanic (onCommit p h _ _ m)
    unfold onCommit
    split
    · trivial
    have hb := hget ⟨m.node, m.round⟩ m.pre
    refine Outcome.bind (noPanic_index (hin hb (hvoter _ rfl)).setCommit) ?_
    intro b _ _
    dsimp only
    split
    · trivial
    split
    all_goals trivial
  | viewChange m =>
    show NoPanic (onViewChange p h _ _ receiver m)
    unfold onViewChange
    split
    · trivial
    dsimp only
    split
    · trivial
    -- A view change can end the process, but not for an index.
    refine Outcome.bind (Q := fun _ => True) ?_ (fun _ _ _ => trivial)
    refine Outcome.intro (fun _ _ => trivial) ?_
    intro x hx
    rw [newViewHash_error hx]
    simp
  | newView m =>
    show NoPanic (onNewView p h _ _ origin m)
    unfold onNewView
    split
    · trivial
    dsimp only
    split
    all_goals trivial

end Call

/-! ## §3. The members of a shard. -/

/-- A message about to be processed between two calls, with its sender. -/
def Offered (before : Graph) (e : Entry) (first : List Message) (cs : List Call) (sender : Nat)
    (msg : Message) : Prop :=
  Source before e first sender msg ∨ ∃ c ∈ cs, c.sender = sender ∧ c.resp = some msg

/-- **The votes of a shard are in range**: for every member the accesses to a new vote set stay
within bounds, and no call for members' blocks panics for an index. -/
structure VotesInRange (nodes : List Nat) : Prop where
  index : ∀ v ∈ nodes, (newBitset nodes.length).InRange v
  calls : ∀ (lastInterpreted : Nat) (grow : Nat → Nat) (datas : List BlockGraph)
    (data : BlockGraph) (before g : Graph) (e : Entry) (first : List Message) (cs : List Call)
    (s : State), Calling nodes lastInterpreted grow datas data before e first cs g s →
    (∀ b ∈ added (datas ++ [data]), b.node ∈ nodes) →
    ∀ sender msg, Offered before e first cs sender msg →
      react g.params g.heap s sender e.block.node e.block msg ≠ .error .indexOutOfRange

theorem Log.sender {receiver : Nat} {origin : BlockID} {src : Nat → Message → Prop} {g g' : Graph}
    {s s' : State} {cs : List Call} (hl : Log receiver origin src g s cs g' s') {c : Call}
    (hc : c ∈ cs) : ∃ m, src c.sender m := by
  induction hl generalizing c with
  | nil => cases hc
  | @snoc cs c' g1 s1 _ hsrc _ ih =>
    rcases List.mem_append.mp hc with hc | hc
    · exact ih hc
    rw [List.mem_singleton.mp hc]
    rcases hsrc with hsrc | ⟨c'', hc'', hsender, _⟩
    · exact ⟨_, hsrc⟩
    · exact hsender ▸ ih hc''

theorem VotesInRange.of_index {nodes : List Nat}
    (hindex : ∀ v ∈ nodes, (newBitset nodes.length).InRange v) : VotesInRange nodes where
  index := hindex
  calls := by
    intro lastInterpreted grow datas data before g e first cs s hcalling hmembers sender msg hmsg
    have hcount : g.params.nodeCount = nodes.length := by rw [hcalling.params]; rfl
    have hblocks : ∀ b ∈ added (datas ++ [data]),
        BlockAbout (fun _ _ _ => True) (· ∈ nodes) nodes b :=
      fun b hb => ⟨trivial, hmembers b hb, fun _ _ => trivial⟩
    obtain ⟨hbefore, hauthor, hcalls, hout⟩ := hcalling.about (fun _ _ _ _ => trivial) hblocks
    have hrange : ∀ v ∈ nodes, v / 64 < (g.params.nodeCount + 63) >>> 6 := by
      intro v hv
      rw [hcount]
      exact ((Bitset.Sized.newBitset nodes.length).inRange_iff v).mp (hindex v hv)
    -- Messages come from the block itself or from stored blocks, whose authors are members.
    have hsource : ∀ x m, Source before e first x m → x ∈ nodes := by
      rintro x m (⟨hx, _⟩ | ⟨dep, _, hx, hm⟩)
      · exact hx ▸ hauthor
      · obtain ⟨st, hst, _⟩ := mem_getOutput hm
        exact hx ▸ (hbefore.states dep st hst).1
    have hsender : sender ∈ nodes := by
      obtain ⟨g1, s1, _, hlog⟩ := hcalling.log
      rcases hmsg with hmsg | ⟨c, hc, hs, _⟩
      · exact hsource _ _ hmsg
      · obtain ⟨m, hm⟩ := hlog.sender hc
        exact hs ▸ hsource _ _ hm
    have hvoter : ∀ x, msg.voter = some x → x ∈ nodes := by
      rcases hmsg with (⟨_, hm⟩ | ⟨dep, _, _, hm⟩) | ⟨c, hc, _, hresp⟩
      · exact (hout msg (List.mem_append_left _ hm)).voter
      · obtain ⟨st, hst, hm⟩ := mem_getOutput hm
        exact ((hbefore.states dep st hst).2.2 msg hm).voter
      · exact (hout msg (List.mem_append_right _ (mem_responses.mpr ⟨c, hc, hresp⟩))).voter
    have hok := react_noPanic rfl hrange hcalls.state e.block hsender hauthor hvoter
    intro herror
    exact hok.of_error herror rfl

/-- **The votes of a shard are in range exactly when its highest node ID is below the bits of a vote
set**, in the arithmetic of the code, where it does not wrap. -/
theorem votes_in_range_iff (t : Topology) {shardID fuel : Nat} {nodes : List Nat}
    (hpos : 0 < shardID) (hle : shardID ≤ t.shardCount) (hsize : 0 < t.shardSize) (hfit : t.Fits)
    (hfuel : t.shardSize < fuel) (hnodes : t.nodesInShard64 fuel shardID = some nodes) :
    VotesInRange nodes ↔
      shardID + (t.shardSize - 1) * t.shardCount < 64 * ((t.shardSize + 63) / 64) := by
  rw [t.nodesInShard64_eq hfit hfuel hpos hle] at hnodes
  have hlen : nodes.length = t.shardSize := t.nodesInShard_length hpos hle hnodes
  have hlist : nodes = (List.range t.shardSize).map (fun j => shardID + j * t.shardCount) := by
    rw [t.nodesInShard_eq hpos hle] at hnodes
    injection hnodes with hnodes
    exact hnodes.symm
  have hindex : ∀ v, (newBitset nodes.length).InRange v ↔ v < 64 * ((t.shardSize + 63) / 64) := by
    intro v
    rw [(Bitset.Sized.newBitset nodes.length).inRange_iff, hlen]
    omega
  constructor
  · intro h
    -- The last member has the highest ID.
    have hlast : shardID + (t.shardSize - 1) * t.shardCount ∈ nodes := by
      rw [hlist]
      exact List.mem_map.mpr ⟨t.shardSize - 1, List.mem_range.mpr (by omega), rfl⟩
    exact (hindex _).mp (h.index _ hlast)
  intro hbound
  apply VotesInRange.of_index
  intro v hv
  rw [hlist] at hv
  obtain ⟨j, hj, _⟩ := List.mem_map.mp hv
  have hj : j ≤ t.shardSize - 1 := by
    have := List.mem_range.mp hj
    omega
  have hmul : j * t.shardCount ≤ (t.shardSize - 1) * t.shardCount := Nat.mul_le_mul_right _ hj
  exact (hindex v).mpr (by omega)

/-- Four shards of four nodes are in range. -/
theorem votes_in_range_sixteen : VotesInRange [4, 8, 12, 16] :=
  (votes_in_range_iff ⟨4, 4⟩ (show 0 < 4 by decide) (by decide) (by decide)
    (show 4 * 4 + 4 < 2 ^ 64 by decide) (show 4 < 5 by decide) (by decide)).mpr (by decide)

/-- The last of sixteen shards of four nodes has node 64, and the one word of its vote sets has no
bit for it: its first block ends the process. -/
theorem votes_of_node_64_panic : (⟨16, 4⟩ : Topology).nodesInShard64 5 16 =
        some [16, 32, 48, 64] ∧
      ¬ VotesInRange [16, 32, 48, 64] ∧
      (newBitset [16, 32, 48, 64].length).setPrepare 64 = none ∧
      (match addBlock (new [16, 32, 48, 64] 0 (2 * ·)) (ownAt 64 1 []) with
        | .ok _ => False
        | .error x => x = .indexOutOfRange) := by
  refine ⟨by decide, ?_, by decide, ?_⟩
  · intro h
    exact absurd (h.index 64 (by decide)).setPrepare (by decide)
  have heval : (match addBlock (new [16, 32, 48, 64] 0 (2 * ·)) (ownAt 64 1 []) with
      | .ok _ => false
      | .error x => decide (x = .indexOutOfRange)) = true := by decide +kernel
  revert heval
  cases addBlock (new [16, 32, 48, 64] 0 (2 * ·)) (ownAt 64 1 []) with
  | ok => exact fun h => nomatch h
  | error => exact fun h => of_decide_eq_true h

end Chainspace.Blockmania
