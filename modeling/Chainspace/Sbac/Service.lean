/-
  Chainspace.Sbac.Service — what a node's service computes without touching its store.

  The helpers of `sbac/common.go` and the two small state machines that collect the answers to a
  transaction: one for each consensus of the own shard (`consensus_sm.go`), one for each phase of
  the exchange with other shards (`sbac_sm.go`). `none` is a process that ends: `log.Fatal` for an
  invalid shard, or a missing key.
-/
import Chainspace.Network.Topology
import Chainspace.Sbac.Identifiers
import Mathlib.Data.List.AList
import Mathlib.Data.Finset.Card

namespace Chainspace.Sbac

open Chainspace.Lib Chainspace.Network

/-! ## §1. Configuration. -/

/-- `ServiceSBAC`: the fields set by `New`.  `ShardSize` is that of the topology. -/
structure Service where
  top : Topology
  nodeID : Nat
  /-- the keyed hash `ShardForVersionID` reduces -/
  versionHash : Bytes → Nat
  /-- SHA-512/256 -/
  hash : Bytes → Bytes
  /-- `proto.Marshal` of a transaction -/
  marshal : Transaction → Bytes
  /-- `privkey.Sign` -/
  sign : Bytes → Bytes
  /-- `SeedPublicKeys()[node].Verify`; `none` if the node has no key -/
  verify : Nat → Bytes → Bytes → Option Bool

namespace Service

variable (s : Service)

def shardForVersionID (key : Bytes) : Nat := s.versionHash key % s.top.shardCount + 1

def shardID : Nat := s.top.shardForNode s.nodeID

/-- `inputObjectsForShard`: the inputs of the own shard (the parameter is shadowed), and whether all
inputs and references are there. -/
def inputObjectsForShard (tx : Transaction) : List Bytes × Bool :=
  (tx.traces.flatMap fun t =>
      t.inputObjectVersionIDs.filter fun o => s.shardForVersionID o = s.shardID,
    tx.traces.all fun t =>
      (t.inputObjectVersionIDs.all fun o => s.shardForVersionID o = s.shardID) &&
        t.inputReferenceVersionIDs.all fun o => s.shardForVersionID o = s.shardID)

/-- `shardsInvolved`: the shards of the inputs and references, each once. -/
def shardsInvolved (tx : Transaction) : List Nat :=
  (tx.traces.flatMap fun t =>
    (t.inputObjectVersionIDs ++ t.inputReferenceVersionIDs).map s.shardForVersionID).dedup

theorem shardForVersionID_le {s : Service} (hcount : 0 < s.top.shardCount) (vid : Bytes) :
    s.shardForVersionID vid ≤ s.top.shardCount := Nat.mod_lt _ hcount

/-- **`shardsInvolved`** finds the shards of the traces alone. -/
theorem mem_shardsInvolved {s : Service} {tx : Transaction} {shard : Nat} :
    shard ∈ s.shardsInvolved tx ↔
      ∃ t ∈ tx.traces, ∃ vid ∈ t.versionIDs, s.shardForVersionID vid = shard := by
  unfold shardsInvolved
  simp only [List.mem_dedup, List.mem_flatMap, List.mem_map, Trace.versionIDs]

def shardsInvolvedWithoutSelf (tx : Transaction) : List Nat :=
  (s.shardsInvolved tx).erase s.shardID

/-- The output objects in the own shard, and whether all are. -/
def outputObjectsForShard (tx : Transaction) : List Object × Bool :=
  let objs := (makeTraceObjectPairs s.hash tx.traces).flatMap TraceObjectPair.outputObjects
  (objs.filter fun o => s.shardForVersionID o.versionID = s.shardID,
    objs.all fun o => s.shardForVersionID o.versionID = s.shardID)

/-- The shards that get new objects and were not involved before. -/
def commitShards (tx : Transaction) : List Nat :=
  let objs := (makeTraceObjectPairs s.hash tx.traces).flatMap TraceObjectPair.outputObjects
  ((objs.map fun o => s.shardForVersionID o.versionID).filter
    fun shard => shard ∉ s.shardsInvolved tx).dedup

/-- `ID`: the 32-bit FNV-1 hash. -/
def ID (data : Bytes) : Nat :=
  data.foldl (fun h b => (h * 16777619 % 2 ^ 32) ^^^ b.toNat) 2166136261

def isNodeInitiatingBroadcast (hashID : Nat) : Bool :=
  match s.top.nodesInShard s.shardID with
  | none => false
  | some nodes => nodes[hashID % nodes.length]? = some s.nodeID

/-- `verifyEvidenceSignature`: the evidence must hold a valid signature of the node itself. -/
def verifyEvidenceSignature (txbytes : Bytes) (evidences : Evidences) : Option Bool :=
  match evidences s.nodeID with
  | none => some false
  | some sig => s.verify s.nodeID txbytes sig

def verifyTransactionSignature (tx : Transaction) (signature : Bytes) (nodeID : Nat) :
    Option Bool :=
  s.verify nodeID (s.marshal tx) signature

def quorumt1 (shardSize : Nat) : Nat := shardSize / 3 + 1

/-! ## §2. The consensus of the own shard (`consensus_sm.go`). -/

end Service

inductive StateConsensus
  | waiting
  | accepted
  | rejected
  deriving DecidableEq, Repr

def Service.onConsensusEvent (s : Service) (data : ConsensusTransaction) : Option StateConsensus :=
  if data.op ≠ .consensusCommit then do
    let valid ← s.verifyEvidenceSignature (s.marshal data.tx) data.evidences
    if valid then some .accepted else some .rejected
  else some .accepted

/-- `ConsensusStateMachine.processEvent`; a finished machine ignores the event. -/
def StateConsensus.processEvent (s : Service) (c : StateConsensus) (data : ConsensusTransaction) :
    Option StateConsensus :=
  if c ≠ .waiting then some c else s.onConsensusEvent data

/-! ## §3. The answers of other shards (`sbac_sm.go`). -/

inductive StateSBAC
  | waiting
  | accepted
  | rejected
  deriving DecidableEq, Repr

structure SignedDecision where
  decision : SBACDecision
  signature : Bytes
  deriving DecidableEq, Repr

abbrev Decisions := AList (fun _ : Nat => SignedDecision)

structure SBACStateMachine where
  decisions : Decisions
  state : StateSBAC

def SBACStateMachine.new : SBACStateMachine := ⟨∅, .waiting⟩

def Decisions.count (ds : Decisions) (nodes : List Nat) (decision : SBACDecision) : Nat :=
  nodes.countP fun n => (ds.lookup n).any fun d => d.decision = decision

namespace Service

variable (s : Service)

def pollShards (ds : Decisions) : List Nat → Bool → Option StateSBAC
  | [], somePending => some (if somePending then .waiting else .accepted)
  | shard :: rest, somePending => do
      let nodes ← s.top.nodesInShard shard
      if ds.count nodes .reject ≥ quorumt1 s.top.shardSize then some .rejected
      else if ds.count nodes .accept ≥ s.top.shardSize then pollShards ds rest somePending
      else pollShards ds rest true

/-- `onSBACEvent`. The signatures are looked at after the decision, and only to log the invalid
ones; a vote of a node without a key ends the process there. -/
def onSBACEvent (tx : Transaction) (ds : Decisions) : Option StateSBAC := do
  let state ← s.pollShards ds (s.shardsInvolvedWithoutSelf tx) false
  if state = .accepted then
    if ds.entries.all fun e =>
        (s.verifyTransactionSignature tx e.2.signature e.1).isSome then some .accepted
    else none
  else some state

end Service

/-- `SBACStateMachine.processEvent`; a finished machine ignores the message. The vote is filed under
its `PeerID`. -/
def SBACStateMachine.processEvent (s : Service) (tx : Transaction) (c : SBACStateMachine)
    (msg : SBACMessage) : Option SBACStateMachine :=
  if c.state ≠ .waiting then some c
  else do
    let ds := c.decisions.insert msg.peerID ⟨msg.decision, msg.signature⟩
    let state ← s.onSBACEvent tx ds
    some ⟨ds, state⟩

/-! ## §4. What the polls say. -/

section Poll
variable {s : Service} {ds : Decisions}

theorem Decisions.count_eq {nodes : List Nat} (hnodup : nodes.Nodup) (decision : SBACDecision) :
    ds.count nodes decision =
      (nodes.filter fun n => (ds.lookup n).any fun d => d.decision = decision).toFinset.card := by
  unfold Decisions.count
  rw [List.countP_eq_length_filter, List.toFinset_card_of_nodup (hnodup.filter _)]

theorem Decisions.all_accept {nodes : List Nat} (h : nodes.length ≤ ds.count nodes .accept)
    {n : Nat} (hn : n ∈ nodes) : ∃ d, ds.lookup n = some d ∧ d.decision = .accept := by
  have hall : nodes.countP (fun n => (ds.lookup n).any fun d => d.decision = .accept) =
      nodes.length := Nat.le_antisymm List.countP_le_length h
  have hn := List.countP_eq_length.mp hall n hn
  obtain ⟨d, hd, hdec⟩ := (Option.any_eq_true _ _).mp hn
  exact ⟨d, hd, of_decide_eq_true hdec⟩

/-- **The poll of the shards**: accepted only if every shard has accepted, rejected only if one has
enough rejections. -/
theorem Service.pollShards_cases {shards : List Nat} {somePending : Bool} {state : StateSBAC}
    (h : s.pollShards ds shards somePending = some state) :
    (state = .accepted → somePending = false ∧ ∀ shard ∈ shards, ∃ nodes,
        s.top.nodesInShard shard = some nodes ∧ s.top.shardSize ≤ ds.count nodes .accept) ∧
      (state = .rejected → ∃ shard ∈ shards, ∃ nodes, s.top.nodesInShard shard = some nodes ∧
        quorumt1 s.top.shardSize ≤ ds.count nodes .reject) := by
  induction shards generalizing somePending with
  | nil =>
    cases h
    cases somePending with
    | true | false => exact ⟨by simp, by simp⟩
  | cons shard shards ih =>
    obtain ⟨nodes, hnodes, h⟩ := Option.bind_eq_some_iff.mp h
    split at h
    next hrej =>
      cases h
      exact ⟨by simp, fun _ => ⟨shard, List.mem_cons_self, nodes, hnodes, hrej⟩⟩
    split at h
    next hacc =>
      obtain ⟨haccepted, hrejected⟩ := ih h
      constructor
      · intro hstate
        obtain ⟨hpending, hall⟩ := haccepted hstate
        refine ⟨hpending, ?_⟩
        intro v hv
        rcases List.mem_cons.mp hv with heq | hv
        · exact ⟨nodes, heq ▸ hnodes, hacc⟩
        · exact hall v hv
      intro hstate
      obtain ⟨v, hv, hrest⟩ := hrejected hstate
      exact ⟨v, List.mem_cons_of_mem shard hv, hrest⟩
    obtain ⟨haccepted, hrejected⟩ := ih h
    constructor
    · intro hstate
      exact absurd (haccepted hstate).1 (by simp)
    intro hstate
    obtain ⟨v, hv, hrest⟩ := hrejected hstate
    exact ⟨v, List.mem_cons_of_mem shard hv, hrest⟩

theorem Service.exists_version {tx : Transaction} {shard : Nat}
    (h : shard ∈ s.shardsInvolvedWithoutSelf tx) : ∃ vid, s.shardForVersionID vid = shard := by
  obtain ⟨_, _, vid, _, hvid⟩ := Service.mem_shardsInvolved.mp (List.mem_of_mem_erase h)
  exact ⟨vid, hvid⟩

/-- **The shards of objects are valid**, so a poll of them has a result. -/
theorem Service.pollShards_of_versions (hcount : 0 < s.top.shardCount) (ds : Decisions)
    {shards : List Nat} (h : ∀ shard ∈ shards, ∃ vid, s.shardForVersionID vid = shard)
    (somePending : Bool) : (s.pollShards ds shards somePending).isSome = true := by
  induction shards generalizing somePending with
  | nil => rfl
  | cons shard shards ih =>
    have ih := ih fun v hv => h v (List.mem_cons_of_mem shard hv)
    obtain ⟨vid, hvid⟩ := h shard List.mem_cons_self
    have hpos : 0 < shard := hvid ▸ Nat.succ_pos _
    have hle : shard ≤ s.top.shardCount := hvid ▸ Service.shardForVersionID_le hcount vid
    have hnodes := s.top.nodesInShard_eq hpos hle
    unfold Service.pollShards
    rw [hnodes, Option.bind_eq_bind, Option.bind_some]
    split
    · rfl
    split
    · exact ih somePending
    · exact ih true

theorem Service.onSBACEvent_cases {tx : Transaction} {state : StateSBAC}
    (h : s.onSBACEvent tx ds = some state) :
    s.pollShards ds (s.shardsInvolvedWithoutSelf tx) false = some state := by
  obtain ⟨state', hpoll, h⟩ := Option.bind_eq_some_iff.mp h
  split at h
  next heq =>
    split at h
    · rw [hpoll, heq, h]
    · cases h
  · rw [hpoll, h]

end Poll

end Chainspace.Sbac
