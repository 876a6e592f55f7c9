/-
  Chainspace.Sbac.Votes — is a phase accepted only on authentic votes?

  Not in general: a vote is filed under the `PeerID` its message carries, whoever sent it, and the
  signature is looked at only after the phase is accepted, to log an error. If every message that
  reaches the node is what it claims to be (signed by its `PeerID`, and reporting what that node
  decided), a phase is accepted only if all nodes of all other shards accepted it, and rejected only
  if enough nodes of one shard did.
-/
import Chainspace.Sbac.Node

namespace Chainspace.Sbac

open Chainspace.Lib List

/-! ## §1. What the nodes of the network have done. -/

/-- The facts that messages report: the transaction an ID stands for, what each node decided in each
phase, and what it signed. Signatures cannot be forged. -/
structure World (s : Service) where
  txOf : Bytes → Transaction
  decided : Nat → Bytes → SBACOp → SBACDecision → Prop
  signed : Nat → Transaction → Prop
  unforgeable : ∀ v tx sig, s.verify v (s.marshal tx) sig = some true → signed v tx

section Defs
variable (s : Service) (w : World s)

/-- A message says what its `PeerID` decided, under a valid signature of that node. -/
structure Genuine (msg : SBACMessage) : Prop where
  signature : s.verify msg.peerID (s.marshal (w.txOf msg.txID)) msg.signature = some true
  decision : w.decided msg.peerID msg.txID msg.op msg.decision

/-- The input brings a genuine message and the transaction of its ID, if any. -/
structure AuthenticInput (input : Input) : Prop where
  genuine : ∀ msg, input.msg = some msg → Genuine s w msg
  named : ∀ detail initial, input.creates s = some (detail, initial) →
    detail.tx = w.txOf detail.id

/-- A phase was accepted or rejected for a reason: all nodes of the other shards signed the
transaction and accepted, or enough nodes of one rejected. -/
structure AuthenticPhase (m : Machine) (op : SBACOp) : Prop where
  accepted : (m.sbac op).state = .accepted →
    ∀ shard ∈ s.shardsInvolvedWithoutSelf m.detail.tx, ∀ nodes,
      s.top.nodesInShard shard = some nodes → ∀ v ∈ nodes,
        w.signed v m.detail.tx ∧ w.decided v m.detail.id op .accept
  rejected : (m.sbac op).state = .rejected →
    ∃ shard ∈ s.shardsInvolvedWithoutSelf m.detail.tx, ∃ nodes,
      s.top.nodesInShard shard = some nodes ∧ ∃ R : Finset Nat,
        (∀ v ∈ R, v ∈ nodes ∧ w.decided v m.detail.id op .reject) ∧
        Service.quorumt1 s.top.shardSize ≤ R.card

def AuthenticPhases (n : Node) : Prop :=
  ∀ i m op, n.machines i = some m → AuthenticPhase s w m op

end Defs

/-! ## §2. Where the votes of a machine come from. -/

section Votes
variable {s : Service} {w : World s}

/-- The votes filed in a phase are those of messages for the transaction, and a phase that is over
was decided by a poll of them. -/
structure FiledVotes (s : Service) (received : List SBACMessage) (m : Machine) : Prop where
  events : ∀ msg, Event.sbac msg ∈ m.events → msg ∈ received
  votes : ∀ op v d, (m.sbac op).decisions.lookup v = some d →
    ∃ msg ∈ received, msg.op = op ∧ msg.txID = m.detail.id ∧ msg.peerID = v ∧
      msg.decision = d.decision ∧ msg.signature = d.signature
  polled : ∀ op, (m.sbac op).state ≠ .waiting →
    s.pollShards (m.sbac op).decisions (s.shardsInvolvedWithoutSelf m.detail.tx) false =
      some (m.sbac op).state

theorem filedVotes_new (received : List SBACMessage) (detail : DetailTx) (initial : State) :
    FiledVotes s received (.new detail initial) where
  events := fun _ h => absurd h (by simp [Machine.new])
  votes := fun _ _ _ h => absurd h (by simp [Machine.new, SBACStateMachine.new])
  polled := fun _ h => absurd rfl h

theorem FiledVotes.mono {received received' : List SBACMessage} {m : Machine}
    (h : FiledVotes s received m) (hsub : ∀ msg ∈ received, msg ∈ received') :
    FiledVotes s received' m where
  events := fun msg hmsg => hsub msg (h.events msg hmsg)
  votes := by
    intro op v d hd
    obtain ⟨msg, hmsg, hrest⟩ := h.votes op v d hd
    exact ⟨msg, hsub msg hmsg, hrest⟩
  polled := h.polled

theorem FiledVotes.step {received : List SBACMessage} {m m' : Machine} {f : Faults}
    {store store' : Store} {act : Option Act} (h : FiledVotes s received m)
    (hstep : m.Steps s f store store' m' act) : FiledVotes s received m' := by
  have hdetail := hstep.detail
  have hevents := hstep.events
  rcases hstep.sbac with hsbac | ⟨msg, c, hmem, hid, hc, hsbac⟩
  · refine ⟨fun msg hmsg => h.events msg (hevents _ hmsg), ?_, ?_⟩
    · rw [hsbac, hdetail]
      exact h.votes
    · rw [hsbac, hdetail]
      exact h.polled
  have hmsg := h.events msg hmem
  -- The phase of the message: it is over and stays as it is, or it files the vote and polls.
  have hone : (∀ v d, c.decisions.lookup v = some d →
      ∃ msg' ∈ received, msg'.op = msg.op ∧ msg'.txID = m.detail.id ∧ msg'.peerID = v ∧
        msg'.decision = d.decision ∧ msg'.signature = d.signature) ∧
      (c.state ≠ .waiting →
        s.pollShards c.decisions (s.shardsInvolvedWithoutSelf m.detail.tx) false =
          some c.state) := by
    unfold SBACStateMachine.processEvent at hc
    split at hc
    · cases hc
      exact ⟨h.votes msg.op, h.polled msg.op⟩
    obtain ⟨state, hstate, hc⟩ := Option.bind_eq_some_iff.mp hc
    cases hc
    refine ⟨?_, fun _ => Service.onSBACEvent_cases hstate⟩
    intro v d hd
    by_cases hv : v = msg.peerID
    · subst hv
      rw [AList.lookup_insert] at hd
      cases hd
      exact ⟨msg, hmsg, rfl, hid, rfl, rfl, rfl⟩
    · rw [AList.lookup_insert_ne hv] at hd
      exact h.votes msg.op v d hd
  refine ⟨fun msg' hmsg' => h.events msg' (hevents _ hmsg'), ?_, ?_⟩
  · intro op v d hd
    rw [hsbac] at hd
    rw [hdetail]
    by_cases hop : op = msg.op
    · subst hop
      simp only [if_true] at hd
      exact hone.1 v d hd
    · simp only [hop, if_false] at hd
      exact h.votes op v d hd
  intro op hstate
  rw [hsbac] at hstate ⊢
  rw [hdetail]
  by_cases hop : op = msg.op
  · subst hop
    simp only [if_true] at hstate ⊢
    exact hone.2 hstate
  · simp only [hop, if_false] at hstate ⊢
    exact h.polled op hstate

/-- The votes a node has on file come from messages it has received. -/
structure Filing (s : Service) (n : Node) : Prop where
  pending : ∀ msg, Event.sbac msg ∈ n.pending → msg ∈ n.received
  filed : ∀ i m, n.machines i = some m → FiledVotes s n.received m

theorem filing_new (store : Store) : Filing s (.new store) where
  pending := fun _ h => absurd h (by simp [Node.new])
  filed := fun _ _ h => absurd h (by simp [Node.new])

variable {input : Input} {n n' : Node}

theorem Node.Steps.mem_received (h : n.Steps s input n')
    {msg : SBACMessage} (hmsg : msg ∈ n.received) : msg ∈ n'.received := by
  rcases h.received with heq | heq
  · exact heq ▸ hmsg
  · rw [heq]
    exact mem_append_right _ hmsg

theorem Filing.step (h : Filing s n) (hstep : n.Steps s input n') : Filing s n' := by
  have hsub : ∀ msg ∈ n.received, msg ∈ n'.received := fun _ hmsg => hstep.mem_received hmsg
  constructor
  · intro msg hmsg
    cases hstep with
    | same | object | machine => exact h.pending msg hmsg
    | arrive input =>
      rcases mem_append.mp hmsg with hmsg | hmsg
      · exact mem_append_right _ (h.pending msg hmsg)
      have hevent := Option.mem_toList.mp hmsg
      refine mem_append_left _ (Option.mem_toList.mpr ?_)
      cases input with
      | message =>
        injection hevent with hevent
        injection hevent with hevent
        exact congrArg some hevent
      | deliver =>
        injection hevent with hevent
        cases hevent
      | _ => exact absurd hevent (by simp [Input.event])
    | requeue fail pending hp => exact h.pending msg (hp _ hmsg)
    | give e rest i m hpending =>
      exact h.pending msg (hpending ▸ mem_cons_of_mem e hmsg)
    | restart => cases hmsg
  intro i m' hm'
  rcases hstep.machines hm' with hm | ⟨detail, initial, _, _, heq⟩ | ⟨m, e, hm, he, heq⟩ |
    ⟨m, f, act, _, hm, hs⟩
  · exact (h.filed i m' hm).mono hsub
  · exact heq ▸ filedVotes_new _ _ _
  · have hfiled := (h.filed i m hm).mono hsub
    subst heq
    refine ⟨?_, hfiled.votes, hfiled.polled⟩
    intro msg hmsg
    rcases mem_append.mp hmsg with hmsg | hmsg
    · exact hfiled.events msg hmsg
    · rw [← mem_singleton.mp hmsg] at he
      exact hsub msg (h.pending msg he)
  · exact ((h.filed i m hm).step hs).mono hsub

structure Authentic (s : Service) (w : World s) (n : Node) : Prop extends Filing s n where
  received : ∀ msg ∈ n.received, Genuine s w msg
  named : ∀ i m, n.machines i = some m → m.detail.tx = w.txOf m.detail.id

theorem authentic_new (w : World s) (store : Store) : Authentic s w (.new store) where
  toFiling := filing_new store
  received := fun _ h => absurd h (by simp [Node.new])
  named := fun _ _ h => absurd h (by simp [Node.new])

theorem Authentic.step (h : Authentic s w n)
    (hinput : AuthenticInput s w input) (hstep : n.Steps s input n') : Authentic s w n' := by
  refine ⟨h.toFiling.step hstep, ?_, ?_⟩
  · intro msg hmsg
    rcases hstep.received with heq | heq
    · exact h.received msg (heq ▸ hmsg)
    rw [heq] at hmsg
    rcases mem_append.mp hmsg with hmsg | hmsg
    · exact hinput.genuine msg (Option.mem_toList.mp hmsg)
    · exact h.received msg hmsg
  intro i m' hm'
  rcases hstep.machines hm' with hm | ⟨detail, initial, hc, _, heq⟩ | ⟨m, e, hm, _, heq⟩ |
    ⟨m, f, act, _, hm, hs⟩
  · exact h.named i m' hm
  · subst heq
    exact hinput.named detail initial hc
  · subst heq
    exact h.named i m hm
  · rw [hs.detail]
    exact h.named i m hm

theorem Authentic.run {store : Store}
    (h : NodeRun s (fun _ input => AuthenticInput s w input) store n) : Authentic s w n := by
  induction h with
  | start => exact authentic_new w store
  | step _ hok hstep ih => exact ih.step hok (Node.step_cases hstep)

end Votes

/-! ## §3. The phases. -/

section Poll
variable {s : Service} {received : List SBACMessage} {m : Machine} {op : SBACOp}

theorem FiledVotes.accepted (h : FiledVotes s received m) (hstate : (m.sbac op).state = .accepted)
    {shard : Nat} (hshard : shard ∈ s.shardsInvolvedWithoutSelf m.detail.tx) {nodes : List Nat}
    (hnodes : s.top.nodesInShard shard = some nodes) {v : Nat} (hv : v ∈ nodes) :
    ∃ d, (m.sbac op).decisions.lookup v = some d ∧ d.decision = .accept := by
  have hpoll := h.polled op (by rw [hstate]; simp)
  obtain ⟨_, hall⟩ := (Service.pollShards_cases hpoll).1 hstate
  obtain ⟨nodes', hnodes', hcount⟩ := hall shard hshard
  rw [hnodes] at hnodes'
  cases hnodes'
  have hvalid := Network.Topology.nodesInShard_valid hnodes
  have hlen := s.top.nodesInShard_length hvalid.1 hvalid.2 hnodes
  exact Decisions.all_accept (hlen ▸ hcount) hv

theorem FiledVotes.rejected (h : FiledVotes s received m) (hstate : (m.sbac op).state = .rejected) :
    ∃ shard ∈ s.shardsInvolvedWithoutSelf m.detail.tx, ∃ nodes,
      s.top.nodesInShard shard = some nodes ∧ ∃ R : Finset Nat, (∀ v ∈ R, v ∈ nodes ∧
          ∃ d, (m.sbac op).decisions.lookup v = some d ∧ d.decision = .reject) ∧
        Service.quorumt1 s.top.shardSize ≤ R.card := by
  have hpoll := h.polled op (by rw [hstate]; simp)
  obtain ⟨shard, hshard, nodes, hnodes, hcount⟩ := (Service.pollShards_cases hpoll).2 hstate
  have hvalid := Network.Topology.nodesInShard_valid hnodes
  have hnodup := s.top.nodesInShard_nodup hvalid.1 hvalid.2 hnodes
  rw [Decisions.count_eq hnodup] at hcount
  refine ⟨shard, hshard, nodes, hnodes, _, ?_, hcount⟩
  intro v hv
  obtain ⟨hv, hany⟩ := mem_filter.mp (mem_toFinset.mp hv)
  obtain ⟨d, hd, hdec⟩ := (Option.any_eq_true _ _).mp hany
  exact ⟨hv, d, hd, of_decide_eq_true hdec⟩

end Poll

/-- **Phases are accepted and rejected on authentic votes** in every run whose inputs are authentic.
-/
theorem phases_authentic {s : Service} {w : World s} {store : Store} {n : Node}
    (h : NodeRun s (fun _ input => AuthenticInput s w input) store n) : AuthenticPhases s w n := by
  have hauth := Authentic.run h
  intro i m op hm
  have hfiled := hauth.filed i m hm
  -- A vote on file was cast, under a valid signature.
  have hvote : ∀ v d, (m.sbac op).decisions.lookup v = some d →
      w.signed v m.detail.tx ∧ w.decided v m.detail.id op d.decision := by
    intro v d hd
    obtain ⟨msg, hmsg, hop, hid, hv, hdec, _⟩ := hfiled.votes op v d hd
    have hgen := hauth.received msg hmsg
    have hsig := hgen.signature
    rw [hid, ← hauth.named i m hm, hv] at hsig
    refine ⟨w.unforgeable v _ _ hsig, ?_⟩
    have hdecided := hgen.decision
    rwa [hv, hid, hop, hdec] at hdecided
  constructor
  · intro hstate shard hshard nodes hnodes v hv
    obtain ⟨d, hd, hdec⟩ := hfiled.accepted hstate hshard hnodes hv
    exact hdec ▸ hvote v d hd
  intro hstate
  obtain ⟨shard, hshard, nodes, hnodes, R, hR, hcard⟩ := hfiled.rejected hstate
  refine ⟨shard, hshard, nodes, hnodes, R, ?_, hcard⟩
  intro v hv
  obtain ⟨hmem, d, hd, hdec⟩ := hR v hv
  exact ⟨hmem, hdec ▸ (hvote v d hd).2⟩

/-! ## §4. A network of two shards with a node each. -/

def pairVote : SBACMessage where
  op := .phase1
  decision := .accept
  txID := txIDOf (fun data => data) pairTx
  tx := pairTx
  evidences := .empty
  signature := [2]
  peerID := 2

/-- A client sends `pairTx`, somebody sends the vote, and the machine takes it. -/
def pairInputs : List Input :=
  [.addTransaction pairTx (PMap.empty.set 1 [1]) ⟨false, false⟩, .message pairVote,
    .dispatch false, .step 0 ⟨false, false⟩]

/-- The machine of `pairTx` on node 1 then takes phase 1 for accepted. -/
theorem pairInputs_accepted (signing : Bool) :
    ∃ n m, (Node.new .empty).stepAll (pairService signing) pairInputs = some n ∧
      n.machines 0 = some m ∧ m.detail.tx = pairTx ∧ (m.sbac .phase1).state = .accepted := by
  have hsome : ((Node.new .empty).stepAll (pairService signing) pairInputs).isSome = true := by
    cases signing with
    | true | false => decide
  obtain ⟨n, hn⟩ := Option.isSome_iff_exists.mp hsome
  have hm : (((Node.new .empty).stepAll (pairService signing) pairInputs).bind (·.machines 0)).map
      (fun m => (m.detail.tx, (m.sbac .phase1).state)) = some (pairTx, .accepted) := by
    cases signing with
    | true | false => rfl
  rw [hn] at hm
  obtain ⟨m, hm, heq⟩ := Option.map_eq_some_iff.mp hm
  injection heq with htx hstate
  exact ⟨n, m, hn, hm, htx, hstate⟩

def pairWorld (signing : Bool) : World (pairService signing) where
  txOf := fun _ => pairTx
  decided := fun node _ _ decision => signing = true ∧ node = 2 ∧ decision = .accept
  signed := fun node _ => node = 1 ∨ signing = true
  unforgeable := by
    intro v tx sig h
    injection h with h
    simpa using h

/-- When node 2 has accepted, its vote and the request are authentic. -/
theorem phases_authentic_pair :
    ∃ n, NodeRun (pairService true) (fun _ input => AuthenticInput _ (pairWorld true) input) .empty
        n ∧ (∃ m, n.machines 0 = some m ∧ (m.sbac .phase1).state = .accepted) ∧
      AuthenticPhases (pairService true) (pairWorld true) n := by
  obtain ⟨n, m, hn, hm, _, hstate⟩ := pairInputs_accepted true
  have hauth : ∀ input ∈ pairInputs, AuthenticInput (pairService true) (pairWorld true) input := by
    intro input hinput
    simp only [pairInputs, mem_cons, not_mem_nil, or_false] at hinput
    rcases hinput with rfl | rfl | rfl | rfl
    · refine ⟨fun msg h => absurd h (by simp [Input.msg]), ?_⟩
      intro detail initial h
      injection h with h
      injection h with h
      rw [← h]
      rfl
    · refine ⟨?_, fun detail initial h => absurd h (by simp [Input.creates, pairVote])⟩
      intro msg h
      cases h
      exact ⟨rfl, rfl, rfl, rfl⟩
    · exact ⟨fun msg h => absurd h (by simp [Input.msg]),
        fun detail initial h => absurd h (by simp [Input.creates])⟩
    · exact ⟨fun msg h => absurd h (by simp [Input.msg]),
        fun detail initial h => absurd h (by simp [Input.creates])⟩
  have hrun := NodeRun.stepAll (NodeRun.start (s := pairService true)) (fun _ => hauth) hn
  exact ⟨n, hrun, ⟨m, hm, hstate⟩, phases_authentic hrun⟩

/-- **A forged vote is as good as any other**: node 2 has neither signed nor accepted `pairTx`, and
the signature in its name is not valid. -/
theorem forged_vote_accepted : ∃ n, NodeRun (pairService false) (fun _ _ => True) .empty n ∧
      (∀ sig, (pairService false).verifyTransactionSignature pairTx sig 2 = some false) ∧
      ¬ AuthenticPhases (pairService false) (pairWorld false) n := by
  obtain ⟨n, m, hn, hm, htx, hstate⟩ := pairInputs_accepted false
  refine ⟨n, NodeRun.stepAll .start (fun _ _ _ => trivial) hn, fun _ => rfl, ?_⟩
  intro h
  have hshard : 2 ∈ (pairService false).shardsInvolvedWithoutSelf m.detail.tx := by
    rw [htx]
    decide
  have hvote := (h 0 m .phase1 hm).accepted hstate 2 hshard [2] rfl 2 mem_cons_self
  exact absurd hvote.2.1 (by simp)

end Chainspace.Sbac
