/-
  Chainspace.Sbac.Atomicity — is a transaction over several shards committed by all or by none?

  Not in general. A transaction that has locked its inputs on a node can lose them: another one,
  refused the lock, unlocks them when it aborts, and a third one consumes them. The first has
  accepted phase 2, so the other shards commit; here the deactivation fails, and the machine rests
  in a state without an action. If the commit is not disturbed on the nodes of the shards involved,
  it is atomic.
-/
import Chainspace.Sbac.Federation

namespace Chainspace.Sbac

open Chainspace.Lib Chainspace.Network List

/-! ## §1. Atomic commits. -/

/-- **Cross-shard atomicity**: once a node of a shard involved has deactivated inputs or created
outputs of the transaction, no machine of it comes to rest, on such a node, in a state it can not
leave, unless it has deactivated its inputs. -/
def CrossAtomic (F : Federation) (id : Bytes) (tx : Transaction) (net : Net) : Prop :=
  (∃ u, F.Involved tx u ∧ (net.node u).Commits id) →
    ∀ v, F.Involved tx v → ∀ i m, (net.node v).machines i = some m → m.detail.id = id →
      m.pc = .idle → m.state.hasAction = false →
      (net.node v).Deactivated id ∧ ∀ o ∈ ((F.service v).inputObjectsForShard tx).1,
        (net.node v).store.statuses o = some .inactive

section Atomic
variable {F : Federation} {id : Bytes} {tx : Transaction} {stores : Nat → Store} {net : Net}

theorem inputObjectsForShard_cross {s : Service} {a b : Nat} (ha : a ∈ s.shardsInvolved tx)
    (hb : b ∈ s.shardsInvolved tx) (hab : a ≠ b) : (s.inputObjectsForShard tx).2 = false := by
  by_contra hall
  have hall : (s.inputObjectsForShard tx).2 = true := by simpa using hall
  have hone : ∀ x ∈ s.shardsInvolved tx, x = s.shardID := by
    intro x hx
    obtain ⟨t, ht, hx⟩ := mem_flatMap.mp (mem_dedup.mp hx)
    obtain ⟨o, ho, hx⟩ := mem_map.mp hx
    have hall := all_eq_true.mp hall t ht
    simp only [Bool.and_eq_true, all_eq_true, decide_eq_true_eq] at hall
    rw [← hx]
    rcases mem_append.mp ho with ho | ho
    · exact hall.1 o ho
    · exact hall.2 o ho
  exact hab ((hone a ha).trans (hone b hb).symm)

theorem Federation.Involved.shardOf {v : Nat} (h : F.Involved tx v) :
    F.shardOf v ∈ F.base.shardsInvolved tx ∧
      ∃ nodes, F.base.top.nodesInShard (F.shardOf v) = some nodes ∧ v ∈ nodes := by
  obtain ⟨shard, hshard, nodes, hnodes, hv⟩ := h
  have hvalid := Network.Topology.nodesInShard_valid hnodes
  have heq : F.shardOf v = shard := F.base.top.shardForNode_of_mem hvalid.1 hvalid.2 hnodes hv
  rw [heq]
  exact ⟨hshard, nodes, hnodes, hv⟩

theorem heard_of_other {v x : Nat} {op : SBACOp} (hv : (net.node v).HeardAll (F.service v) id tx op)
    (hx : F.Involved tx x) (hne : F.shardOf x ≠ F.shardOf v) :
    (net.node v).Heard id op .accept x := by
  obtain ⟨hshard, nodes, hnodes, hmem⟩ := hx.shardOf
  have hother : F.shardOf x ∈ (F.service v).shardsInvolvedWithoutSelf tx :=
    (mem_erase_of_ne hne).mpr hshard
  exact hv _ hother nodes hnodes x hmem

theorem exists_other
    (hcross : ∃ a ∈ F.base.shardsInvolved tx, ∃ b ∈ F.base.shardsInvolved tx, a ≠ b)
    {u : Nat} (hu : F.Involved tx u) : ∃ x, F.Involved tx x ∧ F.shardOf x ≠ F.shardOf u := by
  obtain ⟨_, nodes, hnodes, hmem⟩ := hu.shardOf
  have hvalid := Network.Topology.nodesInShard_valid hnodes
  have hlen := F.base.top.nodesInShard_length hvalid.1 hvalid.2 hnodes
  -- One of the two shards is another one.
  have hc : ∃ c ∈ F.base.shardsInvolved tx, c ≠ F.shardOf u := by
    obtain ⟨a, ha, b, hb, hab⟩ := hcross
    by_cases h : a = F.shardOf u
    · exact ⟨b, hb, fun hb => hab (h.trans hb.symm)⟩
    · exact ⟨a, ha, h⟩
  obtain ⟨c, hc, hne⟩ := hc
  have hrange : 0 < c ∧ c ≤ F.base.top.shardCount := by
    obtain ⟨t, _, hc⟩ := mem_flatMap.mp (mem_dedup.mp hc)
    obtain ⟨o, _, hc⟩ := mem_map.mp hc
    have hlt : F.base.versionHash o % F.base.top.shardCount < F.base.top.shardCount :=
      Nat.mod_lt _ (by omega)
    unfold Service.shardForVersionID at hc
    omega
  have hsome := F.base.top.nodesInShard_eq hrange.1 hrange.2
  generalize hl : (List.range F.base.top.shardSize).map
    (fun j => c + j * F.base.top.shardCount) = others at hsome
  have hlen' := F.base.top.nodesInShard_length hrange.1 hrange.2 hsome
  have hpos : 0 < others.length := by
    rw [hlen', ← hlen]
    exact length_pos_of_mem hmem
  obtain ⟨x, hx⟩ := exists_mem_of_length_pos hpos
  refine ⟨x, ⟨c, hc, others, hsome, hx⟩, ?_⟩
  have heq : F.shardOf x = c := F.base.top.shardForNode_of_mem hrange.1 hrange.2 hsome hx
  rw [heq]
  exact hne

end Atomic

/-- **A transaction over several shards is committed by all or by none** in every run that does not
disturb it on the nodes of those shards. -/
theorem cross_shard_atomic {F : Federation} {id : Bytes} {tx : Transaction} {stores : Nat → Store}
    {net : Net}
    (hcross : ∃ a ∈ F.base.shardsInvolved tx, ∃ b ∈ F.base.shardsInvolved tx, a ≠ b)
    (hrun : NetRun F (fun v n input => F.Involved tx v →
      Undisturbed (F.service v) id tx n input) stores net) : CrossAtomic F id tx net := by
  -- The share of every node involved is in order.
  have hshare : ∀ v, F.Involved tx v → Share (F.service v) id tx (net.node v) := by
    intro v hv
    obtain ⟨a, ha, b, hb, hab⟩ := hcross
    have hcross := inputObjectsForShard_cross (s := F.service v) ha hb hab
    refine Share.run hcross ((hrun.nodeRun v).mono ?_)
    intro n input hok
    exact hok hv
  intro hcommits v hv i m hm hid hpc haction
  obtain ⟨u, hu, hcommits⟩ := hcommits
  -- The others have agreed, since `u` has committed.
  have hagreed : ∀ x, F.Involved tx x → F.shardOf x ≠ F.shardOf u →
      (net.node x).Sent id .phase2 .accept := by
    intro x hx hne
    obtain ⟨p, hstage, _⟩ := (hshare u hu).stage
    exact hrun.sent (heard_of_other (hstage.heardAgreed (hstage.committed hcommits)) hx hne)
  -- So all have prepared.
  have hprepared : ∀ x, F.Involved tx x → (net.node x).Sent id .phase1 .accept := by
    intro x hx
    by_cases hne : F.shardOf x = F.shardOf u
    · obtain ⟨y, hy, hother⟩ := exists_other hcross hu
      obtain ⟨p, hstage, _⟩ := (hshare y hy).stage
      have hheard := hstage.heardPrepared (hstage.agreed (hagreed y hy hother))
      exact hrun.sent (heard_of_other hheard hx (hne ▸ hother.symm))
    · obtain ⟨p, hstage, _⟩ := (hshare x hx).stage
      exact hstage.prepared.mpr (.inr (hstage.agreed (hagreed x hx hne)))
  -- Nobody has rejected.
  have hreject : ∀ op, op = .phase1 ∨ op = .phase2 →
      ¬ (net.node v).HeardReject (F.service v) id tx op := by
    intro op hop h
    obtain ⟨shard, hshard, nodes, hnodes, x, hx, hheard⟩ := h
    have hx : F.Involved tx x := ⟨shard, mem_of_mem_erase hshard, nodes, hnodes, hx⟩
    have hsent := hrun.sent hheard
    obtain ⟨p, hstage, _⟩ := (hshare x hx).stage
    rcases hop with hop | hop
    · subst hop
      have hp := hstage.prepared.mp (hprepared x hx)
      rw [hstage.refused hsent] at hp
      simp at hp
    · subst hop
      exact hstage.notVetoed hsent
  -- The machine rests in a state with no action: it has committed, or it has aborted.
  obtain ⟨p, hstage, _, hat⟩ := (hshare v hv).stage
  have hp := hstage.prepared.mp (hprepared v hv)
  have hstands := hat i m hm hid
  unfold Node.StandsAt at hstands
  rw [hpc] at hstands
  generalize hs : m.state = st at hstands haction
  cases hstands with
  | idle hrest =>
    cases hrest with
    | deactivated | succeeded => exact hstage.done rfl
    | aborted habort =>
      cases habort with
      | unlocked | refused => simp at hp
      | phase1 h => exact absurd h (hreject .phase1 (.inl rfl))
      | phase2 h => exact absurd h (hreject .phase2 (.inr rfl))
    | _ => exact absurd haction (by simp [State.hasAction])

/-! ## §2. Two shards of one node each. -/

def pairFederation : Federation := ⟨pairService true, fun v _ => [.ofNat v]⟩

def pairID : Bytes := txIDOf (fun data => data) pairTx

def pairEvidences : Evidences := (PMap.empty.set 1 [1]).set 2 [2]

def netSteps (v i steps : Nat) : List NetInput :=
  List.replicate steps (.own v (.step i ⟨false, false⟩))

/-- A client sends a transaction to node `v`, whose shard agrees on it. -/
def netAgreed (v i : Nat) (tx : Transaction) (steps : Nat) : List NetInput :=
  [.own v (.addTransaction tx pairEvidences ⟨false, false⟩), .agree v 0, .deliver v,
    .own v (.dispatch false)] ++ netSteps v i steps

/-- Node `v` gets the decision in entry `k` of the history of node `u`. -/
def netDecision (u v k steps : Nat) : List NetInput :=
  [.transmit u v k, .own v (.dispatch false)] ++ netSteps v 0 steps

def netConsensus2 (v : Nat) : List NetInput :=
  [.agree v 0, .deliver v, .own v (.dispatch false)] ++ netSteps v 0 6

def agreedPair : List NetInput :=
  [.own 1 (.createObject [1] ⟨false, false⟩), .own 2 (.createObject [2] ⟨false, false⟩)] ++
    netAgreed 1 0 pairTx 9 ++ netAgreed 2 0 pairTx 9 ++ netDecision 2 1 0 6 ++
    netDecision 1 2 1 6 ++ netConsensus2 1 ++ netConsensus2 2

/-- What the runs below look at: whether the machine of `pairTx` has deactivated its input, and the
state it waits in. -/
def Net.pairView (net : Net) (v : Nat) : Bool × Option State :=
  ((net.node v).history.any fun r => decide (r.detail.id = pairID) &&
      match r.act with
      | .deactivate true => true
      | _ => false,
    ((net.node v).machines 0).bind fun m =>
      match m.pc with
      | .idle => if m.detail.id = pairID then some m.state else none
      | _ => none)

/-- A test of what a node gets: it holds of inputs that do not disturb `pairTx`. -/
def calm (s : Service) (n : Node) : Input → Bool
  | .addTransaction _ _ _ => !(n.history.any fun r => r.detail.id = pairID)
  | .deliver data =>
    (data.op ≠ .consensus1 || (n.states data.txID).isSome) &&
      s.verifyEvidenceSignature (s.marshal data.tx) data.evidences = some true
  | .message msg => msg.op ≠ .commit
  | .step i f => f = ⟨false, false⟩ && n.notAborting (.step i f)
  | _ => true

theorem calm_undisturbed {s : Service} {n : Node} {input : Input} (h : calm s n input = true)
    (htx : ∀ t e f, input = .addTransaction t e f → t = pairTx) :
    Undisturbed s pairID pairTx n input := by
  cases input with
  | addTransaction t e f =>
    refine ⟨?_, by simp [Input.event], by simp, trivial⟩
    intro d initial hc _
    injection hc with hc
    injection hc with hd hi
    refine ⟨?_, hi.symm, ?_⟩
    · rw [← hd]
      exact htx t e f rfl
    intro hst
    obtain ⟨r, hr, hid, _⟩ := hst
    simp only [calm, Bool.not_eq_true', any_eq_false, decide_eq_true_eq] at h
    exact h r hr hid
  | deliver =>
    simp only [calm, Bool.and_eq_true, Bool.or_eq_true, decide_eq_true_eq] at h
    refine ⟨?_, ?_, by simp, trivial⟩
    · intro d initial hc hid
      exfalso
      obtain ⟨hc, hnew⟩ := Node.creates_iff.mp hc
      have hnone : n.states d.id = none := hnew.resolve_right (by simp)
      rcases Input.creates_cases hc with ⟨_, _, _, heq, _⟩ | ⟨data', heq, hop, hd, _⟩ | ⟨_, heq, _⟩
      · cases heq
      · cases heq
        have hsome : (n.states d.id).isSome = true := by
          rw [hd]
          exact h.1.resolve_left (not_not.mpr hop)
        rw [hnone] at hsome
        cases hsome
      · cases heq
    · intro e he
      cases he
      exact fun _ _ => h.2
  | message msg =>
    have hop : msg.op ≠ .commit := by simpa [calm] using h
    refine ⟨?_, ?_, by simp, trivial⟩
    · intro d initial hc _
      simp [Node.creates, Input.creates, hop] at hc
    intro e he
    cases he
    trivial
  | step i f =>
    simp only [calm, Bool.and_eq_true, decide_eq_true_eq] at h
    refine ⟨by simp [Node.creates, Input.creates], by simp [Input.event], ?_, ?_⟩
    · intro j g m hstep _ _
      injection hstep with _ hf
      rw [← hf]
      exact h.1
    · exact SafeAbort.of_notAborting s n (.step i f) h.2
  | _ =>
    exact ⟨by simp [Node.creates, Input.creates], by simp [Input.event], by simp, trivial⟩

theorem Net.localInput_addTransaction {F : Federation} {net : Net} {i : NetInput} {v : Nat}
    {tx : Transaction} {e : Evidences} {f : Faults}
    (h : net.localInput F i = some (v, .addTransaction tx e f)) :
    i = .own v (.addTransaction tx e f) := by
  cases i with
  | own w input =>
    have h : (if input.isOwn then some (w, input) else none) = some (v, _) := h
    split at h
    · injection h with h
      injection h with hv hinput
      rw [hv, hinput]
    · cases h
  | transmit =>
    simp only [Net.localInput] at h
    split at h
    · split at h
      · injection h with h
        cases h
      · cases h
    · cases h
  | agree => exact absurd h (by simp [Net.localInput])
  | deliver =>
    obtain ⟨data, _, h⟩ := Option.map_eq_some_iff.mp h
    cases h

/-- Undisturbed, both nodes commit `pairTx`. -/
theorem cross_shard_atomic_pair :
    ∃ net, NetRun pairFederation (fun v n input => pairFederation.Involved pairTx v →
        Undisturbed (pairFederation.service v) pairID pairTx n input) (fun _ => .empty) net ∧
      net.pairView 1 = (true, some .succeeded) ∧ net.pairView 2 = (true, some .succeeded) ∧
      CrossAtomic pairFederation pairID pairTx net := by
  have hview : ((Net.new fun _ => .empty).stepWhile pairFederation
      (fun v => calm (pairFederation.service v))
      (agreedPair ++ netDecision 2 1 0 7 ++ netDecision 1 2 3 7)).map
      (fun net => (net.pairView 1, net.pairView 2)) =
        some ((true, some .succeeded), (true, some .succeeded)) := by decide +kernel
  obtain ⟨net, hnet, hview⟩ := Option.map_eq_some_iff.mp hview
  injection hview with h1 h2
  have hrun : NetRun pairFederation (fun v n input => pairFederation.Involved pairTx v →
      Undisturbed (pairFederation.service v) pairID pairTx n input) (fun _ => .empty) net := by
    refine NetRun.stepWhile .start ?_ hnet
    intro net' i hi v input hinput hcalm _
    refine calm_undisturbed hcalm ?_
    intro t e f hadd
    subst hadd
    rw [Net.localInput_addTransaction hinput] at hi
    simp [agreedPair, netAgreed, netDecision, netConsensus2, netSteps] at hi
    exact hi.elim (fun h => h.2.1) (fun h => h.2.1)
  exact ⟨net, hrun, h1, h2, cross_shard_atomic (by decide) hrun⟩

def secondTx : Transaction := ⟨[.mk [9] [] [[2]] [] [] [] [] [] [] []]⟩

def thirdTx : Transaction := ⟨[.mk [8] [] [[2]] [] [] [] [] [] [] []]⟩

/-- On node 2, `secondTx` is refused the lock and unlocks the object, which `thirdTx` consumes. Then
phase 2 ends on both nodes. -/
def tornPair : List NetInput :=
  agreedPair ++ netAgreed 2 1 secondTx 6 ++ netAgreed 2 2 thirdTx 6 ++ netDecision 2 1 8 4 ++
    netDecision 1 2 2 5

/-- **A commit over two shards can be torn apart**: node 1 has committed `pairTx`, and on node 2 its
machine rests in `StateObjectsDeactivated` with its input not deactivated. -/
theorem commit_torn_apart : ∃ net, NetRun pairFederation (fun _ _ _ => True) (fun _ => .empty) net ∧
      ¬ CrossAtomic pairFederation pairID pairTx net := by
  have hview : ((Net.new fun _ => .empty).stepWhile pairFederation (fun _ _ _ => true)
      tornPair).map (fun net => ((net.pairView 1).1, net.pairView 2)) =
        some (true, (false, some .objectsDeactivated)) := by decide +kernel
  obtain ⟨net, hnet, hview⟩ := Option.map_eq_some_iff.mp hview
  injection hview with h1 h2
  injection h2 with hdeact hstate
  refine ⟨net, NetRun.stepWhile .start (fun _ _ _ _ _ _ _ => trivial) hnet, ?_⟩
  intro h
  -- Node 1 has deactivated its input.
  have hcommits : (net.node 1).Commits pairID := by
    obtain ⟨r, hr, hcommit⟩ := any_eq_true.mp h1
    simp only [Bool.and_eq_true, decide_eq_true_eq] at hcommit
    obtain ⟨hid, hact⟩ := hcommit
    refine ⟨r, hr, hid, ?_⟩
    split at hact
    next heq => rw [heq]; rfl
    · cases hact
  -- The machine on node 2 is idle.
  obtain ⟨m, hm, hidle⟩ := Option.bind_eq_some_iff.mp hstate
  split at hidle
  next hpc =>
    split at hidle
    next hid =>
      injection hidle with hstate
      obtain ⟨⟨r, hr, hrid, hact⟩, _⟩ := h ⟨1, ⟨1, by decide, [1], rfl, by decide⟩, hcommits⟩ 2
        ⟨2, by decide, [2], rfl, by decide⟩ 0 m hm hid hpc (by rw [hstate]; rfl)
      have hnone := any_eq_false.mp hdeact r hr
      simp [hrid, hact] at hnone
    · cases hidle
  · cases hidle

end Chainspace.Sbac
