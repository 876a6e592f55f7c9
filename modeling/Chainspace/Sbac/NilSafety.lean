/-
  Chainspace.Sbac.NilSafety — which messages make a node dereference nil.

  A message is formed if its operation is known and, should it be one that can start a machine, it
  has a transaction. A node that gets only formed messages never dereferences nil (§3). Any other
  message can end the process: one without a transaction starts a machine that has none, and one
  with an unknown operation is enough as soon as there is a machine for its transaction (§4). What
  can still end the process is a vote in the name of a node without a key.
-/
import Chainspace.Lib.Loop
import Chainspace.Sbac.Wire

namespace Chainspace.Sbac.Wire

open Chainspace.Lib List

/-! ## §1. Formed messages, and results that are safe. -/

/-- The operation is known, and a message that can start a machine has a transaction. -/
def Event.Formed : Event → Prop
  | .consensus data =>
    ∃ op, consensusOp data.op = some op ∧ (op = .consensus1 → data.tx.isSome = true)
  | .sbac msg => ∃ op, sbacOp msg.op = some op ∧ (op = .commit → msg.tx.isSome = true)

/-- The vote of a message is that of one of the nodes. -/
def Event.From (peer : Nat → Prop) : Event → Prop
  | .consensus _ => True
  | .sbac msg => peer msg.peerID

def HasKey (s : Service) (node : Nat) : Prop := ∀ data sig, (s.verify node data sig).isSome = true

/-- There are shards, and the node itself and all of the given ones have keys. -/
structure Configured (s : Service) (peer : Nat → Prop) : Prop where
  shards : 0 < s.top.shardCount
  own : HasKey s s.nodeID
  keys : ∀ node, peer node → HasKey s node

/-- A result is of the right kind, or the process has ended for a reason that a complete
configuration rules out. -/
abbrev Safe {α : Type} (configured : Prop) (P : α → Prop) : Except Panic α → Prop :=
  Outcome P fun p => p = .fatal ∧ ¬ configured

theorem safe_orFatal {α : Type} {configured : Prop} {x : Option α}
    (h : configured → x.isSome = true) : Safe configured (fun _ => True) (orFatal x) := by
  cases x with
  | none => exact ⟨rfl, fun hc => absurd (h hc) (by simp)⟩
  | some => exact trivial

/-! ## §2. One step. -/

/-- A machine that has its transaction, with formed messages to consume. -/
structure Machine.Formed (peer : Nat → Prop) (m : Machine) : Prop where
  tx : ∃ tx, m.detail.tx = some tx
  events : ∀ e ∈ m.events, e.Formed ∧ e.From peer
  decisions : ∀ op, ∀ d ∈ (m.sbac op).decisions.entries, peer d.1

section Step
variable {s : Service} {f : Faults} {peer : Nat → Prop} {m : Machine} {store : Store}

theorem Machine.Formed.at (h : m.Formed peer) (state : State) (pc : Pc) :
    Machine.Formed peer { m with state := state, pc := pc } := ⟨h.tx, h.events, h.decisions⟩

theorem safe_verifyEvidenceSignature (txbytes : Bytes) (evidences : Evidences) :
    Safe (Configured s peer) (fun _ => True)
      (orFatal (s.verifyEvidenceSignature txbytes evidences)) := by
  apply safe_orFatal
  intro hc
  unfold Service.verifyEvidenceSignature
  cases evidences s.nodeID with
  | none => rfl
  | some sig => exact hc.own _ sig

theorem safe_onConsensusEvent (op : ConsensusOp) (data : ConsensusTransaction) :
    Safe (Configured s peer) (fun _ => True) (onConsensusEvent s op data) := by
  unfold onConsensusEvent
  split
  · apply Outcome.bind (safe_verifyEvidenceSignature (marshal s data.tx) data.evidences)
    intro valid _ _
    cases valid with
    | true | false => exact trivial
  · exact trivial

theorem safe_onSBACEvent {tx : Option Transaction} {ds : Decisions} (htx : ∃ t, tx = some t)
    (hds : ∀ d ∈ ds.entries, peer d.1) :
    Safe (Configured s peer) (fun _ => True) (onSBACEvent s tx ds) := by
  obtain ⟨tx, rfl⟩ := htx
  have hsome : Configured s peer → (s.onSBACEvent tx ds).isSome = true := by
    intro hc
    unfold Service.onSBACEvent
    obtain ⟨state, hstate⟩ := Option.isSome_iff_exists.mp
      (Service.pollShards_of_versions hc.shards ds (fun _ => Service.exists_version) false)
    have hkeys : (ds.entries.all fun e =>
        (s.verifyTransactionSignature tx e.2.signature e.1).isSome) = true := by
      apply all_eq_true.mpr
      intro d hd
      exact hc.keys d.1 (hds d hd) _ _
    rw [hstate]
    show (if state = .accepted then _ else _ : Option StateSBAC).isSome = true
    split
    all_goals rfl
  exact safe_orFatal hsome

section
variable (hm : m.Formed peer)
include hm

/-- **A formed message** goes to a sub-machine that is there. -/
theorem Machine.safe_processEvent {e : Event} (he : e.Formed ∧ e.From peer) :
    Safe (Configured s peer) (fun m' => m'.Formed peer) (m.processEvent s e) := by
  unfold Machine.processEvent
  split
  · exact hm
  cases e with
  | consensus data =>
    obtain ⟨⟨op, hop, _⟩, _⟩ := he
    simp only [hop]
    split
    · exact hm
    apply Outcome.bind (safe_onConsensusEvent op data)
    intro c _ _
    exact ⟨hm.tx, hm.events, hm.decisions⟩
  | sbac msg =>
    obtain ⟨⟨op, hop, _⟩, hpeer⟩ := he
    simp only [hop]
    split
    · exact hm
    next =>
      -- the vote is filed under the peer of the message
      have hds : ∀ d ∈ ((m.sbac op).decisions.insert msg.peerID
          ⟨sbacDecision msg.decision, msg.signature⟩).entries, peer d.1 := by
        intro d hd
        rcases mem_cons.mp hd with heq | hd
        · rw [heq]
          exact hpeer
        · exact hm.decisions op d ((kerase_sublist _ _).subset hd)
      apply Outcome.bind (safe_onSBACEvent hm.tx hds)
      intro state _ _
      refine ⟨hm.tx, hm.events, ?_⟩
      intro o d hd
      by_cases ho : o = op
      · simp only [ho, if_true] at hd
        exact hds d hd
      · simp only [ho, if_false] at hd
        exact hm.decisions o d hd

theorem Machine.Formed.moveTo (st : State) : (m.moveTo st).Formed peer := by
  unfold Machine.moveTo
  split
  · exact hm.at _ _
  · split
    all_goals exact hm.at _ _

theorem Machine.safe_move {configured : Prop} :
    Safe configured (fun m' => m'.Formed peer) m.move := by
  obtain ⟨tx, htx⟩ := hm.tx
  unfold Machine.move
  split
  · split
    · exact hm.moveTo _
    · exact hm.moveTo _
    · rw [htx]
      exact hm.at _ _
  case h_7 => exact hm.at _ _
  all_goals exact hm.moveTo _

theorem Machine.safe_callTransition (t : Transition) {configured : Prop} :
    Safe configured (fun _ => True) (callTransition s f m.detail store t) := by
  obtain ⟨tx, htx⟩ := hm.tx
  unfold callTransition
  rw [htx]
  exact trivial

theorem Machine.safe_step :
    Safe (Configured s peer) (fun r => r.2.Formed peer) (m.step s f store) := by
  obtain ⟨tx, htx⟩ := hm.tx
  unfold Machine.step
  split
  · split
    · exact hm
    next e rest hevents =>
      have hin : ∀ x ∈ e :: rest, x.Formed ∧ x.From peer := hevents ▸ hm.events
      have hrest : Machine.Formed peer { m with events := rest } :=
        ⟨hm.tx, fun x hx => hin x (mem_cons_of_mem e hx), hm.decisions⟩
      apply Outcome.bind (safe_processEvent hrest (hin e mem_cons_self))
      intro m' _ hm'
      exact hm'.at _ _
  · apply Outcome.bind (safe_move hm)
    intro m' _ hm'
    exact hm'
  · exact hm.moveTo _
  · split
    · exact hm.at _ _
    · exact hm.moveTo _
  next =>
    split
    · exact hm.at _ _
    · rw [htx]
      exact hm.at _ _
    next t _ _ =>
      apply Outcome.bind (safe_callTransition hm t)
      rintro ⟨store', next⟩ _ _
      cases next with
      | none | some => exact hm.at _ _
  · rw [htx]
    exact hm.at _ _

end

/-- A node whose machines are formed, with formed messages that wait. -/
structure Node.Formed (peer : Nat → Prop) (n : Node) : Prop where
  machines : ∀ i m, n.machines i = some m → m.Formed peer
  pending : ∀ e ∈ n.pending, e.Formed ∧ e.From peer

variable {n : Node}

section
variable (hn : n.Formed peer)
include hn

theorem Node.Formed.set (i : Nat) (hm : m.Formed peer) (j : Nat) (m' : Machine)
    (h : n.machines.set i m j = some m') : m'.Formed peer := by
  rcases PMap.of_set h with ⟨_, h⟩ | ⟨_, h⟩
  · exact h ▸ hm
  · exact hn.machines j m' h

theorem Node.Formed.add {detail : DetailTx} (htx : ∃ tx, detail.tx = some tx)
    (initial : State) : (n.add detail initial).Formed peer := by
  have hnew : (Machine.new detail initial).Formed peer := by
    refine ⟨htx, by simp [Machine.new], ?_⟩
    intro op d hd
    exact absurd hd (by simp [Machine.new, SBACStateMachine.new])
  exact ⟨hn.set n.next hnew, hn.pending⟩

theorem Node.Formed.getOrCreate {detail : DetailTx}
    (htx : ∃ tx, detail.tx = some tx) (initial : State) :
    (n.getOrCreate detail initial).Formed peer := by
  unfold Node.getOrCreate
  split
  · exact hn
  · exact hn.add htx initial

theorem Node.Formed.queue {e : Event} (he : e.Formed ∧ e.From peer) :
    Node.Formed peer { n with pending := n.pending ++ [e] } := by
  exact ⟨hn.machines, forall_mem_append.mpr ⟨hn.pending, forall_mem_singleton.mpr he⟩⟩

theorem Node.Formed.deliver {data : ConsensusTransaction}
    (he : (Event.consensus data).Formed) : (n.deliver data).Formed peer := by
  obtain ⟨op, hop, htx⟩ := he
  refine Node.Formed.queue ?_ ⟨⟨op, hop, htx⟩, trivial⟩
  split
  next hone =>
    rw [hop] at hone
    exact hn.getOrCreate (Option.isSome_iff_exists.mp (htx (Option.some.inj hone))) _
  · exact hn

theorem Node.Formed.message {msg : SBACMessage}
    (he : (Event.sbac msg).Formed ∧ peer msg.peerID) : (n.message msg).Formed peer := by
  obtain ⟨⟨op, hop, htx⟩, hpeer⟩ := he
  refine Node.Formed.queue ?_ ⟨⟨op, hop, htx⟩, hpeer⟩
  split
  next hcommit =>
    rw [hop] at hcommit
    exact hn.getOrCreate (Option.isSome_iff_exists.mp (htx (Option.some.inj hcommit))) _
  · exact hn

theorem Node.Formed.dispatch (fail : Bool) : (n.dispatch fail).Formed peer := by
  unfold Node.dispatch
  split
  · exact hn
  next e rest hpending =>
    have hin : ∀ x ∈ e :: rest, x.Formed ∧ x.From peer := hpending ▸ hn.pending
    have hrest : ∀ x ∈ rest, x.Formed ∧ x.From peer := fun x hx => hin x (mem_cons_of_mem e hx)
    have htaken : Node.Formed peer { n with pending := rest } := ⟨hn.machines, hrest⟩
    split
    · exact htaken
    split
    · exact htaken.queue (hin e mem_cons_self)
    next i _ =>
      split
      · exact hn
      next m hm =>
        have hmf := hn.machines i m hm
        have hgiven : Machine.Formed peer { m with events := m.events ++ [e] } := by
          refine ⟨hmf.tx, ?_, hmf.decisions⟩
          exact forall_mem_append.mpr ⟨hmf.events, forall_mem_singleton.mpr (hin e mem_cons_self)⟩
        exact ⟨hn.set i hgiven, hrest⟩

/-- **A step of a formed node**: only a client's request without a transaction reads a missing one.
-/
theorem Node.Formed.safe_step {input : Input}
    (hok : ∀ e, input.event = some e → e.Formed ∧ e.From peer)
    (hclient : ∀ evidences, input ≠ .addTransaction none evidences) :
    Safe (Configured s peer) (fun n' => n'.Formed peer) (n.step s input) := by
  cases input with
  | addTransaction tx evidences =>
    cases tx with
    | none => exact absurd rfl (hclient evidences)
    | some tx =>
      apply Outcome.bind (safe_verifyEvidenceSignature (s.marshal tx) evidences)
      intro valid _ _
      cases valid with
      | false => exact hn
      | true => exact hn.add ⟨tx, rfl⟩ _
  | deliver => exact hn.deliver (hok _ rfl).1
  | message => exact hn.message (hok _ rfl)
  | createObject object =>
    show Safe _ _ (if object = [] then _ else _)
    split
    · exact hn
    · exact ⟨hn.machines, hn.pending⟩
  | dispatch fail => exact hn.dispatch fail
  | step i f =>
    show Safe _ _ (n.stepMachine s i f)
    unfold Node.stepMachine
    split
    · exact hn
    next m hm =>
      apply Outcome.bind (Machine.safe_step (hn.machines i m hm))
      rintro ⟨store, m'⟩ _ hm'
      exact ⟨hn.set i hm', hn.pending⟩
  | restart => exact ⟨fun i m hm => absurd hm (by simp), fun e he => absurd he (by simp)⟩

end

end Step

/-! ## §3. Every run. -/

section Run
variable {s : Service} {peer : Nat → Prop} {store : Store} {n : Node}

/-- No input dereferences a nil sub-machine, and only a client's request a nil transaction. -/
def Node.NilFree (s : Service) (n : Node) : Prop :=
  ∀ input, n.step s input ≠ .error .subMachine ∧
    (n.step s input = .error .transaction → ∃ evidences, input = .addTransaction none evidences)

theorem Node.Formed.panics (hn : n.Formed peer) {input : Input} {p : Panic}
    (h : n.step s input = .error p) :
    (∃ evidences, input = .addTransaction none evidences) ∨ p = .fatal ∧ ¬ Configured s peer := by
  by_cases hclient : ∃ evidences, input = .addTransaction none evidences
  · exact .inl hclient
  -- a message is queued, whatever it is
  have hok : ∀ e, input.event = some e → e.Formed ∧ e.From peer := by
    intro e he
    cases input with
    | deliver | message => exact absurd h (by simp [Node.step])
    | _ => exact absurd he (by simp [Input.event])
  have hsafe := hn.safe_step (s := s) hok (fun evidences heq => hclient ⟨evidences, heq⟩)
  rw [h] at hsafe
  exact .inr hsafe

theorem Run.formed (hrun : Run s (fun e => e.Formed ∧ e.From peer) store n) : n.Formed peer := by
  induction hrun with
  | start =>
    exact ⟨fun i m hm => absurd hm (by simp [Node.new]), fun e he => absurd he (by simp [Node.new])⟩
  | @step n n' input _ hok h ih =>
    have hclient : ∀ evidences, input ≠ .addTransaction none evidences := by
      intro evidences heq
      rw [heq] at h
      exact absurd h (by simp [Node.step, Node.addTransaction, deref, bind, Except.bind])
    exact (ih.safe_step hok hclient).of_ok h

theorem Run.mono {ok ok' : Event → Prop} (hrun : Run s ok store n) (h : ∀ e, ok e → ok' e) :
    Run s ok' store n := by
  induction hrun with
  | start => exact .start
  | step _ hok hstep ih => exact ih.step (fun e he => h e (hok e he)) hstep

theorem Run.nilFree (hrun : Run s Event.Formed store n) : n.NilFree s := by
  have hfrom : ∀ e : Event, e.From fun _ => True := by
    intro e
    cases e with
    | consensus | sbac => exact trivial
  have hn : n.Formed fun _ => True := (hrun.mono fun e he => ⟨he, hfrom e⟩).formed
  intro input
  constructor
  · intro h
    rcases hn.panics h with ⟨evidences, heq⟩ | ⟨hp, _⟩
    · rw [heq] at h
      exact absurd h (by simp [Node.step, Node.addTransaction, deref, bind, Except.bind])
    · exact absurd hp (by decide)
  intro h
  rcases hn.panics h with hclient | ⟨hp, _⟩
  · exact hclient
  · exact absurd hp (by decide)

end Run

/-! ## §4. Messages that are not formed. -/

section Broken
variable {s : Service} {ok : Event → Prop} {store : Store}

def single (store : Store) (id : Bytes) (m : Machine) (pending : List Event) : Node where
  store := store
  machines := PMap.empty.set 0 m
  next := 1
  states := PMap.empty.set id 0
  pending := pending

variable {f : Faults} {id : Bytes} {m : Machine} {input : Input} {x : Event}

theorem single_step {m' : Machine} {store' : Store}
    {pending : List Event} (h : m.step s f store = .ok (store', m')) :
    (single store id m pending).step s (.step 0 f) = .ok (single store' id m' pending) := by
  show Node.stepMachine s (single store id m pending) 0 f = _
  unfold Node.stepMachine single
  simp only [PMap.set_self, h, PMap.set_set]
  rfl

theorem single_panics {p : Panic} {pending : List Event} (h : m.step s f store = .error p) :
    (single store id m pending).step s (.step 0 f) = .error p := by
  show Node.stepMachine s (single store id m pending) 0 f = _
  unfold Node.stepMachine single
  simp only [PMap.set_self, h]
  rfl

theorem single_dispatch {e : Event} {rest : List Event} :
    (single store e.txID m (e :: rest)).step s (.dispatch false) =
      .ok (single store e.txID { m with events := m.events ++ [e] } rest) := by
  show Except.ok (Node.dispatch _ false) = _
  unfold Node.dispatch single
  simp only [Bool.false_eq_true, if_false, PMap.set_self, PMap.set_set]

theorem Run.silent {n n' : Node} (hrun : Run s ok store n)
    (hinput : input.event = none) (h : n.step s input = .ok n') : Run s ok store n' := by
  refine hrun.step ?_ h
  intro e he
  rw [hinput] at he
  cases he

theorem Run.first {n : Node} (hinput : input.event = some x)
    (h : (Node.new store).step s input = .ok n) : Run s (fun e => e = x ∨ e.Formed) store n := by
  refine Run.start.step ?_ h
  intro e he
  rw [hinput] at he
  exact .inl (Option.some.inj he).symm

def starter (id : Bytes) : SBACMessage := ⟨2, 0, id, some ⟨[]⟩, .empty, [], 0⟩

theorem starter_formed (id : Bytes) : (Event.sbac (starter id)).Formed :=
  ⟨.commit, rfl, fun _ => rfl⟩

def started (id : Bytes) (events : List Event) : Machine :=
  { Machine.new (Node.detailOf id (some ⟨[]⟩) .empty) .waitingForCommit with events := events }

/-- A message that starts no machine waits for one, and is its first. -/
theorem Run.started (hinput : input.event = some x)
    (hqueue : (Node.new store).step s input = .ok { Node.new store with pending := [x] }) :
    Run s (fun e => e = x ∨ e.Formed) store
      (single store x.txID (Wire.started x.txID [x]) [.sbac (starter x.txID)]) := by
  have hstarted : Run s (fun e => e = x ∨ e.Formed) store
      (single store x.txID (Wire.started x.txID []) [x, .sbac (starter x.txID)]) := by
    have hevent : ∀ e, (Input.message (starter x.txID)).event = some e → e = x ∨ e.Formed := by
      intro e he
      rw [← Option.some.inj he]
      exact .inr (starter_formed x.txID)
    exact (Run.first hinput hqueue).step hevent rfl
  exact hstarted.silent rfl single_dispatch

theorem Node.not_nilFree {n : Node} {p : Panic} (h : n.step s (.step 0 f) = .error p)
    (hp : p ≠ .fatal) : ¬ n.NilFree s := by
  intro hfree
  cases p with
  | subMachine => exact (hfree _).1 h
  | transaction =>
    obtain ⟨evidences, heq⟩ := (hfree _).2 h
    cases heq
  | fatal => exact hp rfl

/-- **A message with an unknown operation** finds no sub-machine. -/
theorem unknown_panics (hinput : input.event = some x)
    (hqueue : (Node.new store).step s input = .ok { Node.new store with pending := [x] })
    (hprocess : ∀ m : Machine, m.detail.id = x.txID → m.processEvent s x = .error .subMachine) :
    ∃ n, Run s (fun e => e = x ∨ e.Formed) store n ∧ ¬ n.NilFree s := by
  refine ⟨_, Run.started hinput hqueue, ?_⟩
  have hstep : (started x.txID [x]).step s ⟨false, false⟩ store = .error .subMachine := by
    show Except.bind (Machine.processEvent s (started x.txID []) x) _ = _
    rw [hprocess (started x.txID []) rfl]
    rfl
  exact Node.not_nilFree (single_panics hstep) (by decide)

theorem Run.starts (hinput : input.event = some x)
    (hadd : (Node.new store).step s input = .ok (single store x.txID m [x])) :
    Run s (fun e => e = x ∨ e.Formed) store
      (single store x.txID { m with events := m.events ++ [x] } []) :=
  (Run.first hinput hadd).silent rfl single_dispatch

/-- **A commit without a transaction** starts a machine that reads its traces at once. -/
theorem commit_panics {msg : SBACMessage} (hop : sbacOp msg.op = some .commit)
    (htx : msg.tx = none) :
    ∃ n, Run s (fun e => e = .sbac msg ∨ e.Formed) store n ∧ ¬ n.NilFree s := by
  let m := Machine.new (Node.detailOf msg.txID none msg.evidences) .waitingForCommit
  have hadd : (Node.new store).step s (.message msg) =
      .ok (single store (Event.sbac msg).txID m [.sbac msg]) := by
    show Except.ok (Node.message (Node.new store) msg) = _
    unfold Node.message
    rw [if_pos hop, htx]
    rfl
  refine ⟨_, Run.starts rfl hadd, ?_⟩
  have hprocess : m.processEvent s (.sbac msg) = .error .transaction := by
    unfold Machine.processEvent
    rw [if_neg (fun hne => hne rfl)]
    simp only [hop]
    rfl
  have hstep : Machine.step s ⟨false, false⟩ store { m with events := m.events ++ [.sbac msg] } =
      .error .transaction := by
    show Except.bind (m.processEvent s (.sbac msg)) _ = _
    rw [hprocess]
    rfl
  exact Node.not_nilFree (single_panics hstep) (by decide)

def decided (id : Bytes) (evidences : Evidences) (c : StateConsensus) (state : State) (pc : Pc) :
    Machine :=
  { Machine.new (Node.detailOf id none evidences) state with
    consensus := fun op => if op = .consensus1 then c else .waiting
    pc := pc }

/-- Accepted, it reads the traces to check its inputs; rejected, it cannot sign, aborts, and reads
them to unlock its inputs. -/
theorem decided_panics {evidences : Evidences} {c : StateConsensus}
    (hc : c ≠ .waiting) (hrun : Run s ok store
      (single store id (decided id evidences c .waitingForConsensus1 .moving) [])) :
    ∃ n, Run s ok store n ∧ ¬ n.NilFree s := by
  let f : Faults := ⟨false, false⟩
  cases c with
  | waiting => exact absurd rfl hc
  | accepted =>
    have hstep : (decided id evidences .accepted .waitingForConsensus1 .moving).step s f store =
        .error .transaction := rfl
    exact ⟨_, hrun, Node.not_nilFree (single_panics hstep) (by decide)⟩
  | rejected =>
    have hstep1 : (decided id evidences .rejected .waitingForConsensus1 .moving).step s f store =
        .ok (store, decided id evidences .rejected .waitingForConsensus1
          (.applying .rejectPhase1Broadcasted)) := rfl
    have hstep2 : (decided id evidences .rejected .waitingForConsensus1
          (.applying .rejectPhase1Broadcasted)).step s f store =
        .ok (store, decided id evidences .rejected .rejectPhase1Broadcasted
          (.applying .aborted)) := rfl
    have hstep3 : (decided id evidences .rejected .rejectPhase1Broadcasted
          (.applying .aborted)).step s f store = .error .transaction := rfl
    have hrun2 := (hrun.silent rfl (single_step hstep1)).silent rfl (single_step hstep2)
    exact ⟨_, hrun2, Node.not_nilFree (single_panics hstep3) (by decide)⟩

theorem onConsensusEvent_decides (hown : HasKey s s.nodeID) (data : ConsensusTransaction) :
    ∃ c, c ≠ .waiting ∧ onConsensusEvent s .consensus1 data = .ok c := by
  have hvalid : ∃ valid, s.verifyEvidenceSignature (marshal s data.tx) data.evidences =
      some valid := by
    unfold Service.verifyEvidenceSignature
    cases data.evidences s.nodeID with
    | none => exact ⟨false, rfl⟩
    | some sig => exact Option.isSome_iff_exists.mp (hown _ sig)
  obtain ⟨valid, hvalid⟩ := hvalid
  unfold onConsensusEvent
  rw [hvalid]
  cases valid with
  | true => exact ⟨.accepted, by decide, rfl⟩
  | false => exact ⟨.rejected, by decide, rfl⟩

/-- **A first consensus without a transaction** starts a machine that reads its traces later. -/
theorem consensus_panics (hown : HasKey s s.nodeID) {data : ConsensusTransaction}
    (hop : consensusOp data.op = some .consensus1) (htx : data.tx = none) :
    ∃ n, Run s (fun e => e = .consensus data ∨ e.Formed) store n ∧ ¬ n.NilFree s := by
  let m := Machine.new (Node.detailOf data.txID none data.evidences) .waitingForConsensus1
  have hadd : (Node.new store).step s (.deliver data) =
      .ok (single store (Event.consensus data).txID m [.consensus data]) := by
    show Except.ok (Node.deliver (Node.new store) data) = _
    unfold Node.deliver
    rw [if_pos hop, htx]
    rfl
  obtain ⟨c, hc, hevent⟩ := onConsensusEvent_decides hown data
  have hprocess : m.processEvent s (.consensus data) =
      .ok (decided data.txID data.evidences c .waitingForConsensus1 .idle) := by
    unfold Machine.processEvent
    simp only [hop]
    rw [if_neg (fun hne => hne rfl), hevent]
    rfl
  have hstep : Machine.step s ⟨false, false⟩ store
      { m with events := m.events ++ [.consensus data] } =
        .ok (store, decided data.txID data.evidences c .waitingForConsensus1 .moving) := by
    show Except.bind (m.processEvent s (.consensus data)) _ = _
    rw [hprocess]
    rfl
  exact decided_panics hc ((Run.starts rfl hadd).silent rfl (single_step hstep))

theorem unknown_or_missing {α : Type} {op : Option α} {starts : α} {tx : Option Transaction}
    (h : ¬ ∃ o, op = some o ∧ (o = starts → tx.isSome = true)) :
    op = none ∨ op = some starts ∧ tx = none := by
  cases op with
  | none => exact .inl rfl
  | some o =>
    simp only [not_exists, not_and, not_forall] at h
    obtain ⟨rfl, htx⟩ := h o rfl
    exact .inr ⟨rfl, Option.not_isSome_iff_eq_none.mp htx⟩

/-- **A message that is not formed** can end the process. -/
theorem unformed_panics (hown : HasKey s s.nodeID) (hx : ¬ x.Formed) :
    ∃ n, Run s (fun e => e = x ∨ e.Formed) store n ∧ ¬ n.NilFree s := by
  cases x with
  | consensus data =>
    rcases unknown_or_missing hx with hop | ⟨hop, htx⟩
    · have hqueue : (Node.new store).step s (.deliver data) =
          .ok { Node.new store with pending := [.consensus data] } := by
        show Except.ok (Node.deliver (Node.new store) data) = _
        unfold Node.deliver
        rw [hop]
        rfl
      apply unknown_panics rfl hqueue
      intro m hid
      unfold Machine.processEvent
      rw [if_neg (fun hne => hne hid.symm)]
      simp only [hop]
    · exact consensus_panics hown hop htx
  | sbac msg =>
    rcases unknown_or_missing hx with hop | ⟨hop, htx⟩
    · have hqueue : (Node.new store).step s (.message msg) =
          .ok { Node.new store with pending := [.sbac msg] } := by
        show Except.ok (Node.message (Node.new store) msg) = _
        unfold Node.message
        rw [hop]
        rfl
      apply unknown_panics rfl hqueue
      intro m hid
      unfold Machine.processEvent
      rw [if_neg (fun hne => hne hid.symm)]
      simp only [hop]
    · exact commit_panics hop htx

end Broken

/-- **The messages that are safe are the formed ones.** A node that gets only formed messages never
dereferences a nil transaction or sub-machine; any other message can make it, together with formed
ones. If moreover all votes are of nodes with a key, nothing ends the process. -/
theorem formed_messages_nil_free (s : Service) :
    (∀ store n, Run s Event.Formed store n → n.NilFree s) ∧
      (HasKey s s.nodeID → ∀ store (x : Event), ¬ x.Formed →
        ∃ n, Run s (fun e => e = x ∨ e.Formed) store n ∧ ¬ n.NilFree s) ∧
      ∀ peer store n, Configured s peer → Run s (fun e => e.Formed ∧ e.From peer) store n →
        ∀ input p, n.step s input = .error p →
          ∃ evidences, input = .addTransaction none evidences := by
  refine ⟨fun store n hrun => hrun.nilFree, fun hown store x hx => unformed_panics hown hx, ?_⟩
  intro peer store n hc hrun input p h
  rcases hrun.formed.panics h with hclient | ⟨_, hnot⟩
  · exact hclient
  · exact absurd hc hnot

def Node.stepAll (s : Service) (n : Node) (inputs : List Input) : Except Panic Node :=
  inputs.foldlM (fun n input => n.step s input) n

/-- A commit without a transaction; a first consensus without one and without evidence; and a
message with operation 3, whose machine a later message starts. -/
theorem decodable_messages_panic : (Node.new .empty).stepAll (pairService true)
        [.message ⟨2, 0, [7], none, .empty, [], 2⟩, .dispatch false, .step 0 ⟨false, false⟩] =
      .error .transaction ∧
    (Node.new .empty).stepAll (pairService true)
        [.deliver ⟨[7], none, .empty, 0, 2⟩, .dispatch false, .step 0 ⟨false, false⟩,
          .step 0 ⟨false, false⟩, .step 0 ⟨false, false⟩, .step 0 ⟨false, false⟩] =
      .error .transaction ∧
    (Node.new .empty).stepAll (pairService true)
        [.message ⟨3, 0, [7], none, .empty, [], 2⟩, .message (starter [7]), .dispatch false,
          .step 0 ⟨false, false⟩] = .error .subMachine := by
  refine ⟨?_, ?_, ?_⟩
  all_goals rfl

end Chainspace.Sbac.Wire
