/-
  Chainspace.Sbac.Federation — the nodes of all shards together.

  Every node follows the code. A message reaches any node of the shards it was sent to, any number
  of times and in any order. What a shard agrees on is a list of the proposals of its nodes, which
  every node of the shard takes in that order.
-/
import Chainspace.Sbac.Share

namespace Chainspace.Sbac

open Chainspace.Lib

/-! ## §1. The network. -/

/-- What all nodes share, and the key each one signs with. -/
structure Federation where
  base : Service
  sign : Nat → Bytes → Bytes

namespace Federation

variable (F : Federation)

def service (v : Nat) : Service := { F.base with nodeID := v, sign := F.sign v }

def shardOf (v : Nat) : Nat := F.base.top.shardForNode v

/-- The node belongs to a shard with inputs or references of the transaction. -/
def Involved (tx : Transaction) (v : Nat) : Prop :=
  ∃ shard ∈ F.base.shardsInvolved tx, ∃ nodes,
    F.base.top.nodesInShard shard = some nodes ∧ v ∈ nodes

end Federation

/-- The state of the network. -/
structure Net where
  node : Nat → Node
  /-- what a shard has agreed on, oldest first -/
  log : Nat → List ConsensusTransaction
  /-- how much of it a node has taken -/
  taken : Nat → Nat

def Net.new (stores : Nat → Store) : Net := ⟨fun v => .new (stores v), fun _ => [], fun _ => 0⟩

/-- What can happen in the network. -/
inductive NetInput
  /-- a request of a client, or a turn of a goroutine -/
  | own (v : Nat) (input : Input)
  /-- node `v` gets the message in entry `k` of the history of node `u` -/
  | transmit (u v k : Nat)
  /-- the shard of node `u` agrees on the proposal in entry `k` of its history -/
  | agree (u k : Nat)
  /-- the node takes what its shard has agreed on next -/
  | deliver (v : Nat)

/-- The inputs a node gets from nobody else. -/
def Input.isOwn : Input → Bool
  | .deliver _ | .message _ => false
  | _ => true

namespace Net

variable (F : Federation)

def localInput (net : Net) : NetInput → Option (Nat × Input)
  | .own v input => if input.isOwn then some (v, input) else none
  | .transmit u v k =>
    match ((net.node u).history[k]?).map Record.act with
    | some (.send msg shards) => if F.shardOf v ∈ shards then some (v, .message msg) else none
    | _ => none
  | .agree _ _ => none
  | .deliver v => ((net.log (F.shardOf v))[net.taken v]?).map fun data => (v, .deliver data)

def agreed (net : Net) : NetInput → Option (Nat × ConsensusTransaction)
  | .agree u k =>
    match ((net.node u).history[k]?).map Record.act with
    | some (.propose data) => some (F.shardOf u, data)
    | _ => none
  | _ => none

def took (net : Net) (v : Nat) : Input → Nat → Nat
  | .deliver _ => fun u => if u = v then net.taken u + 1 else net.taken u
  | _ => net.taken

def step (net : Net) (i : NetInput) : Option Net :=
  match net.agreed F i with
  | some (shard, data) => some { net with
      log := fun x => if x = shard then net.log x ++ [data] else net.log x }
  | none => do
      let (v, input) ← net.localInput F i
      let n ← (net.node v).step (F.service v) input
      some { net with
        node := fun u => if u = v then n else net.node u
        taken := net.took v input }

end Net

/-- **A run of the network**: inputs in any order, where `ok` allows them. -/
inductive NetRun (F : Federation) (ok : Nat → Node → Input → Prop) (stores : Nat → Store) :
    Net → Prop
  | start : NetRun F ok stores (.new stores)
  | step {net net' : Net} {i : NetInput} (hrun : NetRun F ok stores net)
      (hok : ∀ v input, net.localInput F i = some (v, input) → ok v (net.node v) input)
      (h : net.step F i = some net') : NetRun F ok stores net'

/-- The inputs of a list, one after the other, while `ok` allows them. -/
def Net.stepWhile (F : Federation) (ok : Nat → Node → Input → Bool) (net : Net)
    (is : List NetInput) : Option Net :=
  is.foldlM (fun net i =>
    if (net.localInput F i).all fun x => ok x.1 (net.node x.1) x.2 then net.step F i else none) net

theorem NetRun.stepWhile {F : Federation} {ok : Nat → Node → Input → Prop}
    {okb : Nat → Node → Input → Bool} {stores : Nat → Store} {net net' : Net}
    (hrun : NetRun F ok stores net) {is : List NetInput}
    (hok : ∀ net : Net, ∀ i ∈ is, ∀ v input, net.localInput F i = some (v, input) →
      okb v (net.node v) input = true → ok v (net.node v) input)
    (h : net.stepWhile F okb is = some net') : NetRun F ok stores net' := by
  refine foldlM_some_inv (NetRun F ok stores) hrun ?_ h
  intro i hi x y hx hy
  split at hy
  next hb =>
    refine hx.step (fun v input hinput => ?_) hy
    rw [hinput] at hb
    exact hok x i hi v input hinput hb
  · cases hy

/-! ## §2. What a step can do. -/

section Steps
variable {F : Federation} {ok : Nat → Node → Input → Prop} {stores : Nat → Store} {net net' : Net}
  {i : NetInput}

theorem Net.step_cases (h : net.step F i = some net') :
    net'.node = net.node ∨ ∃ v input n, net.localInput F i = some (v, input) ∧
      (net.node v).step (F.service v) input = some n ∧
      net'.node = fun u => if u = v then n else net.node u := by
  unfold Net.step at h
  split at h
  · injection h with h
    exact .inl (h ▸ rfl)
  obtain ⟨⟨v, input⟩, hinput, h⟩ := Option.bind_eq_some_iff.mp h
  obtain ⟨n, hn, h⟩ := Option.bind_eq_some_iff.mp h
  injection h with h
  exact .inr ⟨v, input, n, hinput, hn, h ▸ rfl⟩

theorem NetRun.nodeRun (hrun : NetRun F ok stores net) (v : Nat) :
    NodeRun (F.service v) (ok v) (stores v) (net.node v) := by
  induction hrun with
  | start => exact .start
  | step _ hok h ih =>
    rcases Net.step_cases h with heq | ⟨u, input, n, hinput, hn, heq⟩
    · rw [heq]
      exact ih
    rw [heq]
    show NodeRun _ _ _ (if v = u then n else _)
    by_cases hv : v = u
    · subst hv
      rw [if_pos rfl]
      exact ih.step (hok v input hinput) hn
    · rw [if_neg hv]
      exact ih

theorem Net.localInput_sent {v : Nat} {input : Input} (h : net.localInput F i = some (v, input))
    {msg : SBACMessage} (hmsg : input.msg = some msg) :
    ∃ u, ∃ r ∈ (net.node u).history, ∃ shards, r.act = .send msg shards := by
  cases i with
  | own w input' =>
    have h : (if input'.isOwn then some (w, input') else none) = some (v, input) := h
    split at h
    next hown =>
      injection h with h
      injection h with _ h
      subst h
      cases input' with
      | message => exact absurd hown (by simp [Input.isOwn])
      | _ => exact absurd hmsg (by simp [Input.msg])
    · cases h
  | transmit u w k =>
    have h : (match ((net.node u).history[k]?).map Record.act with
      | some (.send msg shards) => if F.shardOf w ∈ shards then some (w, .message msg) else none
      | _ => none) = some (v, input) := h
    split at h
    next shards hact =>
      split at h
      · injection h with h
        injection h with _ h
        subst h
        cases hmsg
        obtain ⟨r, hr, hact⟩ := Option.map_eq_some_iff.mp hact
        exact ⟨u, r, List.mem_of_getElem? hr, shards, hact⟩
      · cases h
    · cases h
  | agree => exact absurd h (by simp [Net.localInput])
  | deliver =>
    obtain ⟨data, _, h⟩ := Option.map_eq_some_iff.mp h
    injection h with _ h
    subst h
    exact absurd hmsg (by simp [Input.msg])

/-- **A message that has reached a node was sent.** -/
theorem NetRun.received (hrun : NetRun F ok stores net) (v : Nat) (msg : SBACMessage)
    (hmsg : msg ∈ (net.node v).received) :
    ∃ u, ∃ r ∈ (net.node u).history, ∃ shards, r.act = .send msg shards := by
  induction hrun with
  | start => exact absurd hmsg (by simp [Net.new, Node.new])
  | step hrun hok h ih =>
    rename_i net net' i
    rcases Net.step_cases h with heq | ⟨x, input, n, hinput, hn, heq⟩
    · rw [heq] at hmsg ⊢
      exact ih hmsg
    have hsteps := Node.step_cases hn
    -- What was in a history stays there.
    have hkeep : (∃ u, ∃ r ∈ (net.node u).history, ∃ shards, r.act = .send msg shards) →
        ∃ u, ∃ r ∈ (net'.node u).history, ∃ shards, r.act = .send msg shards := by
      intro hold
      obtain ⟨u, r, hr, hact⟩ := hold
      refine ⟨u, r, ?_, hact⟩
      rw [heq]
      show r ∈ (if u = x then n else net.node u).history
      by_cases hu : u = x
      · rw [if_pos hu]
        exact hsteps.mem_history (hu ▸ hr)
      · rw [if_neg hu]
        exact hr
    apply hkeep
    rw [heq] at hmsg
    have hmsg : msg ∈ (if v = x then n else net.node v).received := hmsg
    by_cases hv : v = x
    · rw [if_pos hv] at hmsg
      rcases hsteps.received with hsame | hnew
      · rw [hsame] at hmsg
        exact ih (hv ▸ hmsg)
      rw [hnew] at hmsg
      rcases List.mem_append.mp hmsg with hmsg | hmsg
      · exact Net.localInput_sent hinput (Option.mem_toList.mp hmsg)
      · exact ih (hv ▸ hmsg)
    · rw [if_neg hv] at hmsg
      exact ih hmsg

/-- A node sends messages in its own name, about the transaction of the machine. -/
theorem NodeRun.signed {s : Service} {ok : Node → Input → Prop} {store : Store} {n : Node}
    (hrun : NodeRun s ok store n) {r : Record} (hr : r ∈ n.history) {msg : SBACMessage}
    {shards : List Nat} (hact : r.act = .send msg shards) :
    msg.peerID = s.nodeID ∧ msg.txID = r.detail.id := by
  induction hrun with
  | start => exact absurd hr (by simp [Node.new])
  | step _ _ h ih =>
    rcases (Node.step_cases h).around_or_machine with
      ha | ⟨i, f, m, m', store, act, _, _, hstep, heq⟩
    · obtain ⟨rs, hhist, hrs⟩ := ha.history
      rw [hhist] at hr
      rcases List.mem_append.mp hr with hr | hr
      · rcases hrs r hr with ⟨data, heq⟩ | ⟨initial, heq⟩
        all_goals exact absurd (heq.symm.trans hact) (by simp)
      · exact ih hr
    subst heq
    rcases List.mem_append.mp hr with hr | hr
    · obtain ⟨a, ha, heq⟩ := List.mem_map.mp hr
      subst heq
      have hact : a = .send msg shards := hact
      exact hstep.signed (hact ▸ Option.mem_toList.mp ha)
    · exact ih hr

/-- **What a node has heard of another was sent by it.** -/
theorem NetRun.sent (hrun : NetRun F ok stores net) {v u : Nat} {id : Bytes} {op : SBACOp}
    {decision : SBACDecision} (h : (net.node v).Heard id op decision u) :
    (net.node u).Sent id op decision := by
  obtain ⟨msg, hmsg, hop, hid, hpeer, hdecision⟩ := h
  obtain ⟨w, r, hr, shards, hact⟩ := hrun.received v msg hmsg
  obtain ⟨hnode, htxid⟩ := (hrun.nodeRun w).signed hr hact
  have hw : w = u := hnode.symm.trans hpeer
  subst hw
  refine ⟨r, hr, htxid.symm.trans hid, ?_⟩
  rw [hact, ← hop, ← hdecision]
  rfl

end Steps

end Chainspace.Sbac
