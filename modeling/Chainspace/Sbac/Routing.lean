/-
  Chainspace.Sbac.Routing — the shards of a transaction, as its client, its checkers and its nodes
  see them (`sbac/api/service.go`, `checker/client/client.go`).

  The API sends a transaction to the shards of all its traces and of their dependencies, at any
  depth. The checkers asked for evidence and the shards that vote on it are those of its traces
  alone. A shard that only a dependency names gets the transaction, and nobody waits for its votes.
-/
import Chainspace.Sbac.Node

namespace Chainspace.Sbac

open Chainspace.Lib Chainspace.Network List

/-! ## §1. Traversals. -/

namespace Service

variable (s : Service)

def addShards (shards : List Nat) (vids : List Bytes) : List Nat :=
  vids.foldl (fun shards vid => shards.insert (s.shardForVersionID vid)) shards

mutual

def shardsForTraces (shards : List Nat) : List Trace → List Nat
  | [] => shards
  | t :: ts => shardsForTraces (shardsForTrace shards t) ts

def shardsForTrace (shards : List Nat) : Trace → List Nat
  | .mk _ _ inputs references _ _ _ dependencies _ _ =>
    shardsForTraces (s.addShards (s.addShards shards inputs) references) dependencies

end

def shardsForTx (tx : Transaction) : List Nat := s.shardsForTraces [] tx.traces

/-- The nodes `sendTransaction` submits a transaction to; `pick` is `RandNodeInShard`. -/
def sendTransaction (pick : Nat → Nat) (tx : Transaction) : List Nat :=
  (s.shardsForTx tx).map fun shard => if shard = s.shardID then s.nodeID else pick shard

/-- `nodesForTx` of the checkers' client. -/
def nodesForTx (tx : Transaction) : Option (List Nat) := do
  let shardIDs := tx.traces.foldl (fun shards t =>
    s.addShards (s.addShards shards t.inputObjectVersionIDs) t.inputReferenceVersionIDs) []
  let nodes ← shardIDs.mapM s.top.nodesInShard
  some nodes.flatten

end Service

/-! ## §2. The shards they find. -/

section Members
variable {s : Service} {shards : List Nat} {shard : Nat}

theorem Service.mem_addShards {vids : List Bytes} : shard ∈ s.addShards shards vids ↔
      shard ∈ shards ∨ ∃ vid ∈ vids, s.shardForVersionID vid = shard := by
  unfold Service.addShards
  induction vids generalizing shards with
  | nil => simp
  | cons vid vids ih =>
    rw [foldl_cons, ih, mem_insert_iff]
    constructor
    · intro h
      rcases h with (heq | h) | ⟨v, hv, heq⟩
      · exact .inr ⟨vid, mem_cons_self, heq.symm⟩
      · exact .inl h
      · exact .inr ⟨v, mem_cons_of_mem vid hv, heq⟩
    intro h
    rcases h with h | ⟨v, hv, heq⟩
    · exact .inl (.inr h)
    rcases mem_cons.mp hv with hvid | hv
    · exact .inl (.inl (hvid ▸ heq.symm))
    · exact .inr ⟨v, hv, heq⟩

theorem Service.mem_addShards_trace {t : Trace} :
    shard ∈ s.addShards (s.addShards shards t.inputObjectVersionIDs) t.inputReferenceVersionIDs ↔
      shard ∈ shards ∨ ∃ vid ∈ t.versionIDs, s.shardForVersionID vid = shard := by
  rw [Service.mem_addShards, Service.mem_addShards, or_assoc]
  refine or_congr_right ?_
  unfold Trace.versionIDs
  simp only [mem_append, or_and_right, exists_or]

mutual

/-- **`shardsForTraces`** finds the shards of all traces and their dependencies. -/
theorem Service.mem_shardsForTraces (s : Service) (shards : List Nat) (shard : Nat) :
    ∀ ts : List Trace, shard ∈ s.shardsForTraces shards ts ↔ shard ∈ shards ∨
        ∃ d : Trace, d.Within ts ∧ ∃ vid ∈ d.versionIDs, s.shardForVersionID vid = shard
  | [] => by
      rw [Service.shardsForTraces]
      constructor
      · exact .inl
      intro h
      rcases h with h | ⟨d, hd, _⟩
      · exact h
      · exact absurd hd Trace.not_within_nil
  | t :: ts => by
      rw [Service.shardsForTraces, Service.mem_shardsForTraces s _ shard ts,
        Service.mem_shardsForTrace s shards shard t]
      simp only [Trace.within_cons, or_and_right, exists_or, exists_eq_left, or_assoc]

theorem Service.mem_shardsForTrace (s : Service) (shards : List Nat) (shard : Nat) :
    ∀ t : Trace, shard ∈ s.shardsForTrace shards t ↔
      shard ∈ shards ∨ (∃ vid ∈ t.versionIDs, s.shardForVersionID vid = shard) ∨
        ∃ d : Trace, d.Within t.dependencies ∧ ∃ vid ∈ d.versionIDs, s.shardForVersionID vid = shard
  | .mk c p ins refs outs ps rs deps ios irs => by
      rw [Service.shardsForTrace, Service.mem_shardsForTraces s _ shard deps, ← or_assoc]
      refine or_congr_left ?_
      exact Service.mem_addShards_trace (t := .mk c p ins refs outs ps rs deps ios irs)

end

theorem Service.mem_shardsForTx {tx : Transaction} : shard ∈ s.shardsForTx tx ↔
      ∃ d : Trace, d.Within tx.traces ∧ ∃ vid ∈ d.versionIDs, s.shardForVersionID vid = shard := by
  unfold Service.shardsForTx
  rw [Service.mem_shardsForTraces]
  simp

theorem Service.mem_shardsAsked {ts : List Trace} : shard ∈ ts.foldl (fun shards t =>
      s.addShards (s.addShards shards t.inputObjectVersionIDs) t.inputReferenceVersionIDs) shards ↔
      shard ∈ shards ∨ ∃ t ∈ ts, ∃ vid ∈ t.versionIDs, s.shardForVersionID vid = shard := by
  induction ts generalizing shards with
  | nil => simp
  | cons t ts ih =>
    rw [foldl_cons, ih, Service.mem_addShards_trace, or_assoc]
    refine or_congr_right ?_
    simp only [exists_mem_cons_iff]

end Members

theorem mem_flatten_of_mapM {α β : Type} {f : α → Option (List β)} {xs : List α}
    {yss : List (List β)} (h : xs.mapM f = some yss) :
    (∀ x ∈ xs, (f x).isSome = true) ∧
      ∀ y, y ∈ yss.flatten ↔ ∃ x ∈ xs, ∃ ys, f x = some ys ∧ y ∈ ys := by
  induction xs generalizing yss with
  | nil =>
    cases h
    exact ⟨by simp, by simp⟩
  | cons x xs ih =>
    rw [mapM_cons] at h
    obtain ⟨ys, hys, h⟩ := Option.bind_eq_some_iff.mp h
    obtain ⟨rest, hrest, h⟩ := Option.bind_eq_some_iff.mp h
    cases h
    obtain ⟨hsome, hmem⟩ := ih hrest
    constructor
    · intro z hz
      rcases mem_cons.mp hz with heq | hz
      · rw [heq, hys]
        rfl
      · exact hsome z hz
    intro y
    rw [flatten_cons, mem_append, hmem, exists_mem_cons_iff, hys]
    simp

theorem exists_mapM {α β : Type} {f : α → Option β} {xs : List α}
    (h : ∀ x ∈ xs, (f x).isSome = true) : ∃ ys, xs.mapM f = some ys := by
  induction xs with
  | nil => exact ⟨[], rfl⟩
  | cons x xs ih =>
    obtain ⟨y, hy⟩ := Option.isSome_iff_exists.mp (h x mem_cons_self)
    obtain ⟨ys, hys⟩ := ih (fun z hz => h z (mem_cons_of_mem x hz))
    exact ⟨y :: ys, by rw [mapM_cons, hy, hys]; rfl⟩

/-! ## §3. Agreement. -/

/-- **The three agree on the shards of a transaction**: those it is sent to, that vote on it, and
whose nodes give evidence. -/
structure RoutesAgree (s : Service) (tx : Transaction) : Prop where
  routed : ∀ shard, shard ∈ s.shardsForTx tx ↔ shard ∈ s.shardsInvolved tx
  sent : ∀ pick : Nat → Nat,
    (∀ shard nodes, s.top.nodesInShard shard = some nodes → nodes ≠ [] → pick shard ∈ nodes) →
    ∀ shard, (∃ n ∈ s.sendTransaction pick tx, s.top.shardForNode n = shard) ↔
      shard ∈ s.shardsInvolved tx
  asked : ∃ nodes, s.nodesForTx tx = some nodes ∧
    ∀ shard, (∃ n ∈ nodes, s.top.shardForNode n = shard) ↔ shard ∈ s.shardsInvolved tx

/-- The dependencies use only shards in which the transaction uses an object. -/
def DependenciesCovered (s : Service) (tx : Transaction) : Prop :=
  ∀ d : Trace, d.Within tx.traces → ∀ vid ∈ d.versionIDs,
    ∃ t ∈ tx.traces, ∃ vid' ∈ t.versionIDs, s.shardForVersionID vid' = s.shardForVersionID vid

section Agreement
variable {s : Service} {tx : Transaction}

theorem DependenciesCovered.routed (h : DependenciesCovered s tx) (shard : Nat) :
    shard ∈ s.shardsForTx tx ↔ shard ∈ s.shardsInvolved tx := by
  rw [Service.mem_shardsForTx, Service.mem_shardsInvolved]
  constructor
  · rintro ⟨d, hd, vid, hvid, hshard⟩
    obtain ⟨t, ht, vid', hvid', heq⟩ := h d hd vid hvid
    exact ⟨t, ht, vid', hvid', heq.trans hshard⟩
  · rintro ⟨t, ht, hrest⟩
    exact ⟨t, .here ht, hrest⟩

section
variable (hcount : 0 < s.top.shardCount)
include hcount

theorem Service.shardForNode_of_mem {vid : Bytes} {nodes : List Nat} {n : Nat}
    (hnodes : s.top.nodesInShard (s.shardForVersionID vid) = some nodes)
    (hn : n ∈ nodes) : s.top.shardForNode n = s.shardForVersionID vid :=
  s.top.shardForNode_of_mem (Nat.succ_pos _) (Service.shardForVersionID_le hcount vid) hnodes hn

theorem Service.exists_nodesInShard (hsize : 0 < s.top.shardSize)
    (vid : Bytes) : ∃ nodes, s.top.nodesInShard (s.shardForVersionID vid) = some nodes ∧
      nodes ≠ [] := by
  have heq := s.top.nodesInShard_eq (Nat.succ_pos _) (Service.shardForVersionID_le hcount vid)
  refine ⟨_, heq, ?_⟩
  intro hnil
  have hlen := congrArg List.length hnil
  rw [length_map, length_range, length_nil] at hlen
  omega

theorem Service.sent_iff (hsize : 0 < s.top.shardSize) {pick : Nat → Nat}
    (hpick : ∀ shard nodes, s.top.nodesInShard shard = some nodes → nodes ≠ [] →
      pick shard ∈ nodes) (shard : Nat) :
    (∃ n ∈ s.sendTransaction pick tx, s.top.shardForNode n = shard) ↔ shard ∈ s.shardsForTx tx := by
  have hreach : ∀ v ∈ s.shardsForTx tx,
      s.top.shardForNode (if v = s.shardID then s.nodeID else pick v) = v := by
    intro v hv
    obtain ⟨_, _, vid, _, hvid⟩ := Service.mem_shardsForTx.mp hv
    split
    next hself => exact hself.symm
    obtain ⟨nodes, hnodes, hne⟩ := s.exists_nodesInShard hcount hsize vid
    have hmem : pick v ∈ nodes := hpick v nodes (hvid ▸ hnodes) hne
    rw [s.shardForNode_of_mem hcount hnodes hmem, hvid]
  constructor
  · rintro ⟨n, hn, hshard⟩
    obtain ⟨v, hv, hnode⟩ := mem_map.mp hn
    rw [← hshard, ← hnode, hreach v hv]
    exact hv
  · intro h
    exact ⟨_, mem_map_of_mem h, hreach shard h⟩

theorem Service.asked_iff (hsize : 0 < s.top.shardSize) :
    ∃ nodes, s.nodesForTx tx = some nodes ∧
      ∀ shard, (∃ n ∈ nodes, s.top.shardForNode n = shard) ↔ shard ∈ s.shardsInvolved tx := by
  unfold Service.nodesForTx
  generalize hshards : tx.traces.foldl _ _ = shards
  have hmem : ∀ shard, shard ∈ shards ↔ shard ∈ s.shardsInvolved tx := by
    intro shard
    rw [← hshards, Service.mem_shardsAsked, Service.mem_shardsInvolved]
    simp
  have hnodes : ∀ shard ∈ shards, ∃ nodes, s.top.nodesInShard shard = some nodes ∧ nodes ≠ [] ∧
      ∀ n ∈ nodes, s.top.shardForNode n = shard := by
    intro shard hshard
    obtain ⟨_, _, vid, _, hvid⟩ := Service.mem_shardsInvolved.mp ((hmem shard).mp hshard)
    obtain ⟨nodes, hnodes, hne⟩ := s.exists_nodesInShard hcount hsize vid
    subst hvid
    exact ⟨nodes, hnodes, hne, fun n hn => s.shardForNode_of_mem hcount hnodes hn⟩
  have hsome : ∀ shard ∈ shards, (s.top.nodesInShard shard).isSome = true := by
    intro shard hshard
    obtain ⟨nodes, hnodes, _⟩ := hnodes shard hshard
    rw [hnodes]
    rfl
  obtain ⟨nodess, hall⟩ := exists_mapM hsome
  refine ⟨nodess.flatten, by dsimp only; rw [hall]; rfl, ?_⟩
  intro shard
  rw [← hmem]
  constructor
  · rintro ⟨n, hn, hshard⟩
    obtain ⟨v, hv, nodes, hnodes', hn⟩ := ((mem_flatten_of_mapM hall).2 n).mp hn
    obtain ⟨nodes', heq, _, hin⟩ := hnodes v hv
    rw [hnodes'] at heq
    cases heq
    rw [← hshard, hin n hn]
    exact hv
  intro hshard
  obtain ⟨nodes, heq, hne, hin⟩ := hnodes shard hshard
  obtain ⟨n, hn⟩ := exists_mem_of_ne_nil nodes hne
  exact ⟨n, ((mem_flatten_of_mapM hall).2 n).mpr ⟨shard, hshard, nodes, heq, hn⟩, hin n hn⟩

end

theorem Service.sizes_of_asked {nodes : List Nat} (hnodes : s.nodesForTx tx = some nodes)
    (hasked : ∀ shard, (∃ n ∈ nodes, s.top.shardForNode n = shard) ↔ shard ∈ s.shardsInvolved tx)
    {t : Trace} (ht : t ∈ tx.traces) {vid : Bytes} (hvid : vid ∈ t.versionIDs) :
    0 < s.top.shardCount ∧ 0 < s.top.shardSize := by
  have hinvolved : s.shardForVersionID vid ∈ s.shardsInvolved tx :=
    Service.mem_shardsInvolved.mpr ⟨t, ht, vid, hvid, rfl⟩
  obtain ⟨n, hn, _⟩ := (hasked _).mpr hinvolved
  obtain ⟨nodess, hall, heq⟩ := Option.bind_eq_some_iff.mp hnodes
  cases heq
  obtain ⟨shard, _, ns, hns, hn⟩ := ((mem_flatten_of_mapM hall).2 n).mp hn
  -- The loop of `NodesInShard` has added a node, so its bounds leave room for one.
  unfold Topology.nodesInShard at hns
  split at hns
  · cases hns
  next =>
    injection hns with hns
    have htotal : 0 < s.top.totalNodes := by
      by_contra hzero
      have hzero : s.top.totalNodes = 0 := by omega
      rw [hzero] at hns
      rw [← hns] at hn
      exact absurd hn (by simp [Topology.nodesFrom])
    have hmul : 0 < s.top.shardCount * s.top.shardSize := htotal
    exact ⟨by omega, Nat.pos_of_mul_pos_left hmul⟩

/-- **When the three agree on the shards of a transaction**: no dependency uses an object of a shard
in which the transaction itself uses none. (In a network without nodes nobody is asked.) The nodes
of a shard are those of the code's arithmetic, where it does not wrap. -/
theorem routes_agree_iff (s : Service) (hfit : s.top.Fits) (tx : Transaction) :
    (RoutesAgree s tx ↔ DependenciesCovered s tx ∧
      ((∀ t ∈ tx.traces, t.versionIDs = []) ∨ 0 < s.top.shardCount ∧ 0 < s.top.shardSize)) ∧
    ∀ shard, 0 < shard → shard ≤ s.top.shardCount → ∀ fuel, s.top.shardSize < fuel →
      s.top.nodesInShard shard = s.top.nodesInShard64 fuel shard := by
  refine ⟨?_, fun shard hpos hle fuel hfuel => (s.top.nodesInShard64_eq hfit hfuel hpos hle).symm⟩
  constructor
  · intro h
    obtain ⟨nodes, hnodes, hasked⟩ := h.asked
    constructor
    · intro d hd vid hvid
      have hrouted : s.shardForVersionID vid ∈ s.shardsForTx tx :=
        Service.mem_shardsForTx.mpr ⟨d, hd, vid, hvid, rfl⟩
      exact Service.mem_shardsInvolved.mp ((h.routed _).mp hrouted)
    by_cases hids : ∀ t ∈ tx.traces, t.versionIDs = []
    · exact .inl hids
    obtain ⟨t, ht, hne⟩ : ∃ t ∈ tx.traces, t.versionIDs ≠ [] := by simpa using hids
    obtain ⟨vid, hvid⟩ := exists_mem_of_ne_nil _ hne
    exact .inr (Service.sizes_of_asked hnodes hasked ht hvid)
  rintro ⟨hcov, hsizes⟩
  rcases hsizes with hids | ⟨hcount, hsize⟩
  · -- Without version IDs there are no shards at all.
    have hnone : ∀ shard, shard ∉ s.shardsInvolved tx := by
      intro shard hshard
      obtain ⟨t, ht, vid, hvid, _⟩ := Service.mem_shardsInvolved.mp hshard
      rw [hids t ht] at hvid
      cases hvid
    have hrouted : s.shardsForTx tx = [] := by
      rw [eq_nil_iff_forall_not_mem]
      intro shard hshard
      exact hnone shard ((hcov.routed shard).mp hshard)
    refine ⟨hcov.routed, ?_, [], ?_, ?_⟩
    · intro pick _ shard
      unfold Service.sendTransaction
      rw [hrouted]
      simp [hnone]
    · have hasked : tx.traces.foldl (fun shards t => s.addShards
          (s.addShards shards t.inputObjectVersionIDs) t.inputReferenceVersionIDs) [] = [] := by
        rw [eq_nil_iff_forall_not_mem]
        intro shard hshard
        rcases Service.mem_shardsAsked.mp hshard with h | h
        · cases h
        · exact hnone shard (Service.mem_shardsInvolved.mpr h)
      unfold Service.nodesForTx
      rw [hasked]
      rfl
    · simp [hnone]
  · refine ⟨hcov.routed, ?_, s.asked_iff hcount hsize⟩
    intro pick hpick shard
    rw [s.sent_iff hcount hsize hpick, hcov.routed]

/-- A dependency in shard 2, where another trace has an input. -/
theorem routes_agree_iff_covered : RoutesAgree (pairService true)
    ⟨[.mk [7] [8] [[1]] [] [] [] [] [.mk [7] [8] [[2]] [] [] [] [] [] [] []] [] [],
      .mk [7] [8] [[2]] [] [] [] [] [] [] []]⟩ := by
  refine ((routes_agree_iff (pairService true) (show 2 * 1 + 2 < 2 ^ 64 by decide) _).1).mpr
    ⟨?_, .inr (by decide)⟩
  intro d hd vid hvid
  have hcases : vid = [1] ∨ vid = [2] := by
    simp only [Trace.within_cons, Trace.dependencies, Trace.not_within_nil, or_false] at hd
    rcases hd with rfl | rfl | rfl
    · exact .inl (mem_singleton.mp hvid)
    · exact .inr (mem_singleton.mp hvid)
    · exact .inr (mem_singleton.mp hvid)
  rcases hcases with rfl | rfl
  · exact ⟨_, mem_cons_self, [1], by decide, rfl⟩
  · exact ⟨_, mem_cons_of_mem _ mem_cons_self, [2], by decide, rfl⟩

/-- **A shard that only a dependency names**: the transaction is sent to shard 2, whose votes nobody
waits for and whose node gives no evidence. -/
theorem dependency_routed_alone :
    let dependency : Trace := .mk [7] [8] [[2]] [] [] [] [] [] [] []
    let tx : Transaction := ⟨[.mk [7] [8] [[1]] [] [] [] [] [dependency] [] []]⟩
    (pairService true).shardsForTx tx = [2, 1] ∧ (pairService true).shardsInvolved tx = [1] ∧
      (pairService true).nodesForTx tx = some [1] ∧ ¬ RoutesAgree (pairService true) tx := by
  intro dependency tx
  have hrouted : (pairService true).shardsForTx tx = [2, 1] := by decide
  have hinvolved : (pairService true).shardsInvolved tx = [1] := by decide
  refine ⟨hrouted, hinvolved, by decide, ?_⟩
  intro h
  have h2 := (h.routed 2).mp (by rw [hrouted]; decide)
  exact absurd h2 (by decide)

end Agreement

end Chainspace.Sbac
