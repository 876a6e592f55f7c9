/-
  Chainspace.Sbac.Wire — a node that takes messages as they come off the wire.

  `proto.Unmarshal` accepts a message without a transaction, and any number as an operation or a
  decision. Here `Tx` may be nil and an operation is a number: the code looks the sub-machine of an
  operation up in a map, which gives nil for an unknown one, and dereferences what it has found. A
  dereference of nil is a `Panic`.
-/
import Chainspace.Sbac.Node

namespace Chainspace.Sbac.Wire

open Chainspace.Lib

/-! ## §1. Messages. -/

/-- What ends the process. -/
inductive Panic
  /-- a field of a nil `*Transaction` -/
  | transaction
  /-- a field of a nil `*ConsensusStateMachine` or `*SBACStateMachine` -/
  | subMachine
  /-- the key of a node that has none, or the nodes of an invalid shard -/
  | fatal
  deriving DecidableEq, Repr

/-- `SBACMessage`, decoded. -/
structure SBACMessage where
  op : Int
  decision : Int
  txID : Bytes
  tx : Option Transaction
  evidences : Evidences
  signature : Bytes
  peerID : Nat

/-- `ConsensusTransaction`, decoded. -/
structure ConsensusTransaction where
  txID : Bytes
  tx : Option Transaction
  evidences : Evidences
  op : Int
  initiator : Nat

/-- What waits in the queue of a node. -/
inductive Event
  | consensus (data : ConsensusTransaction)
  | sbac (msg : SBACMessage)

/-- The transaction an event is about. -/
def Event.txID : Event → Bytes
  | .consensus data => data.txID
  | .sbac msg => msg.txID

/-- The operation a number stands for: the keys of the map of sub-machines. -/
def sbacOp : Int → Option SBACOp
  | 0 => some .phase1
  | 1 => some .phase2
  | 2 => some .commit
  | _ => none

/-- The operation a number stands for, in a block. -/
def consensusOp : Int → Option ConsensusOp
  | 0 => some .consensus1
  | 1 => some .consensus2
  | 2 => some .consensusCommit
  | _ => none

/-- A decision counts as a rejection unless it is `ACCEPT`. -/
def sbacDecision (d : Int) : SBACDecision := if d = 0 then .accept else .reject

/-- A field of a transaction is read. -/
def deref : Option Transaction → Except Panic Transaction
  | none => .error .transaction
  | some tx => .ok tx

/-- A missing answer ends the process. -/
def orFatal {α : Type} : Option α → Except Panic α
  | none => .error .fatal
  | some a => .ok a

/-! ## §2. The machine of a transaction. -/

/-- `DetailTx`. -/
structure DetailTx where
  id : Bytes
  tx : Option Transaction
  evidences : Evidences
  hashID : Nat

/-- The details once the transaction is known to be there. -/
def DetailTx.withTx (d : DetailTx) (tx : Transaction) : Sbac.DetailTx :=
  ⟨d.id, tx, d.evidences, d.hashID⟩

/-- `StateMachine`. -/
structure Machine where
  detail : DetailTx
  consensus : ConsensusOp → StateConsensus
  sbac : SBACOp → SBACStateMachine
  state : State
  pc : Pc
  events : List Event

/-- `NewStateMachine`. -/
def Machine.new (detail : DetailTx) (initial : State) : Machine where
  detail := detail
  consensus := fun _ => .waiting
  sbac := fun _ => .new
  state := initial
  pc := .idle
  events := []

section Machine
variable (s : Service) (f : Faults)

/-- `txbytes, _ := proto.Marshal(tx)`: nothing and an ignored error for a nil transaction. -/
def marshal : Option Transaction → Bytes
  | none => []
  | some tx => s.marshal tx

/-- `onConsensusEvent`: a commit is accepted without looking at the evidence. -/
def onConsensusEvent (op : ConsensusOp) (data : ConsensusTransaction) :
    Except Panic StateConsensus :=
  if op ≠ .consensusCommit then do
    let valid ← orFatal (s.verifyEvidenceSignature (marshal s data.tx) data.evidences)
    if valid then .ok .accepted else .ok .rejected
  else .ok .accepted

/-- `onSBACEvent`, which reads the traces for the shards involved. -/
def onSBACEvent (tx : Option Transaction) (ds : Decisions) : Except Panic StateSBAC := do
  let tx ← deref tx
  orFatal (s.onSBACEvent tx ds)

/-- The transition functions, `toAborted` apart. Without a transaction those that sign fail in
`signTransaction`, those that propose leave the field out, the others read its traces. -/
def callTransition (d : DetailTx) (store : Store) (t : Transition) :
    Except Panic (Store × Option State) :=
  match d.tx with
  | some tx =>
    let r := Sbac.callTransition s f (d.withTx tx) store t
    .ok (r.store, r.next)
  | none =>
    match t with
    | .toRejectPhase1Broadcasted | .toAcceptPhase1Broadcasted | .toRejectPhase2Broadcasted
    | .toAcceptPhase2Broadcasted | .toCommitObjectsBroadcasted => .ok (store, some .aborted)
    | .toConsensus2Triggered | .toConsensusCommitTriggered =>
      if s.isNodeInitiatingBroadcast d.hashID && f.marshal then .ok (store, none)
      else .ok (store, t.triggers)
    | .toWaitingForPhase1 | .toWaitingForConsensus2 | .toWaitingForPhase2
    | .toWaitingForConsensusCommit => .ok (store, some t.target)
    | .toObjectLocked | .toObjectDeactivated | .toObjectsCreated | .toSucceeded | .toAborted =>
      .error .transaction

namespace Machine

/-- `StateMachine.processEvent`, and that of the sub-machine it finds. -/
def processEvent (m : Machine) (e : Event) : Except Panic Machine :=
  if e.txID ≠ m.detail.id then .ok m
  else
    match e with
    | .consensus data =>
      match consensusOp data.op with
      | none => .error .subMachine
      | some op =>
        if m.consensus op ≠ .waiting then .ok m
        else do
          let c ← onConsensusEvent s op data
          .ok { m with consensus := fun o => if o = op then c else m.consensus o }
    | .sbac msg =>
      match sbacOp msg.op with
      | none => .error .subMachine
      | some op =>
        if (m.sbac op).state ≠ .waiting then .ok m
        else do
          let ds := (m.sbac op).decisions.insert msg.peerID
            ⟨sbacDecision msg.decision, msg.signature⟩
          let state ← onSBACEvent s m.detail.tx ds
          .ok { m with sbac := fun o => if o = op then ⟨ds, state⟩ else m.sbac o }

/-- The end of an iteration of `moveState`: the new state, and its transition if there is one. -/
def moveTo (m : Machine) (newstate : State) : Machine :=
  if newstate = m.state then { m with pc := .idle }
  else if (transitionTable m.state newstate).isSome then { m with pc := .applying newstate }
  else { m with state := newstate, pc := .moving }

/-- An iteration of `moveState`. `onWaitingForConsensus1` reads the traces once it has the
consensus. -/
def move (m : Machine) : Except Panic Machine :=
  match m.state with
  | .waitingForConsensus1 =>
    match m.consensus .consensus1 with
    | .waiting => .ok (m.moveTo .waitingForConsensus1)
    | .rejected => .ok (m.moveTo .rejectPhase1Broadcasted)
    | .accepted => do
        let tx ← deref m.detail.tx
        .ok { m with pc := .checking tx.traces }
  | .waitingForConsensus2 =>
    .ok (m.moveTo (onWaitingForConsensus (m.consensus .consensus2) .waitingForConsensus2
      .rejectPhase2Broadcasted .acceptPhase2Broadcasted))
  | .waitingForPhase1 =>
    .ok (m.moveTo (onWaitingForPhase (m.sbac .phase1).state .waitingForPhase1
      .consensus2Triggered))
  | .waitingForPhase2 =>
    .ok (m.moveTo (onWaitingForPhase (m.sbac .phase2).state .waitingForPhase2
      .objectsDeactivated))
  | .waitingForCommit =>
    .ok (m.moveTo (onWaitingForPhase (m.sbac .commit).state .waitingForCommit
      .consensusCommitTriggered))
  | .waitingForConsensusCommit =>
    .ok (m.moveTo (onWaitingForConsensus (m.consensus .consensusCommit)
      .waitingForConsensusCommit .aborted .objectsCreated))
  | _ => .ok { m with pc := .idle }

/-- One step of the goroutine of a machine. `toAborted` reads the traces twice: for the inputs to
unlock, and in `MakeIDs` after the transaction is finished. -/
def step (store : Store) (m : Machine) : Except Panic (Store × Machine) :=
  match m.pc with
  | .idle =>
    match m.events with
    | [] => .ok (store, m)
    | e :: rest => do
        let m' ← { m with events := rest }.processEvent s e
        let pc := if m.state = .succeeded ∨ m.state = .aborted then Pc.idle else Pc.moving
        .ok (store, { m' with pc := pc })
  | .moving => do
      let m' ← m.move
      .ok (store, m')
  | .checking [] => .ok (store, m.moveTo .objectLocked)
  | .checking (t :: rest) =>
    if s.traceUsable f.db store t then .ok (store, { m with pc := .checking rest })
    else .ok (store, m.moveTo .rejectPhase1Broadcasted)
  | .applying target =>
    match transitionTable m.state target with
    | none => .ok (store, { m with pc := .moving })
    | some .toAborted => do
        let tx ← deref m.detail.tx
        .ok ((unlockInputs s f (m.detail.withTx tx) store).1, { m with pc := .unlocked })
    | some t => do
        let (store, next) ← callTransition s f m.detail store t
        match next with
        | none => .ok (store, { m with pc := .moving })
        | some next => .ok (store, { m with state := target, pc := .applying next })
  | .unlocked => do
      let _ ← deref m.detail.tx
      .ok ((store.update f.db (fun st => .ok (st.finishTransaction m.detail.id))).1,
        { m with state := .aborted, pc := .applying .aborted })

end Machine

end Machine

/-! ## §3. The node. -/

/-- The service of a node: its store, its machines and the events that wait. -/
structure Node where
  store : Store
  machines : PMap Nat Machine
  next : Nat
  states : PMap Bytes Nat
  pending : List Event

/-- A node that has just started. -/
def Node.new (store : Store) : Node := ⟨store, .empty, 0, .empty, []⟩

/-- What a node can be given, and its goroutines taking a step. -/
inductive Input
  | addTransaction (tx : Option Transaction) (evidences : Evidences)
  | deliver (data : ConsensusTransaction)
  | message (msg : SBACMessage)
  | createObject (object : Bytes) (f : Faults)
  | dispatch (fail : Bool)
  | step (machine : Nat) (f : Faults)
  | restart

/-- The event of a message. -/
def Input.event : Input → Option Event
  | .deliver data => some (.consensus data)
  | .message msg => some (.sbac msg)
  | _ => none

namespace Node

variable (s : Service)

/-- `Add`: a new machine, in place of one that is there. -/
def add (n : Node) (detail : DetailTx) (initial : State) : Node :=
  { n with
    machines := n.machines.set n.next (.new detail initial)
    next := n.next + 1
    states := n.states.set detail.id n.next }

/-- `GetOrCreate`. -/
def getOrCreate (n : Node) (detail : DetailTx) (initial : State) : Node :=
  if (n.states detail.id).isSome then n else n.add detail initial

/-- `DetailTx` of a message. -/
def detailOf (id : Bytes) (tx : Option Transaction) (evidences : Evidences) : DetailTx :=
  ⟨id, tx, evidences, Service.ID id⟩

/-- `AddTransaction`, whose `MakeIDs` reads the traces. -/
def addTransaction (n : Node) (tx : Option Transaction) (evidences : Evidences) :
    Except Panic Node := do
  let tx ← deref tx
  let valid ← orFatal (s.verifyEvidenceSignature (s.marshal tx) evidences)
  if !valid then .ok n
  else .ok (n.add (detailOf (txIDOf s.hash tx) (some tx) evidences) .waitingForConsensus1)

/-- `handleDeliver`, for one transaction of a block. -/
def deliver (n : Node) (data : ConsensusTransaction) : Node :=
  let n := if consensusOp data.op = some .consensus1 then
      n.getOrCreate (detailOf data.txID data.tx data.evidences) .waitingForConsensus1
    else n
  { n with pending := n.pending ++ [.consensus data] }

/-- `handleSBAC`. -/
def message (n : Node) (msg : SBACMessage) : Node :=
  let n := if sbacOp msg.op = some .commit then
      n.getOrCreate (detailOf msg.txID msg.tx msg.evidences) .waitingForCommit
    else n
  { n with pending := n.pending ++ [.sbac msg] }

/-- `consumeEvents`, for the first event: it goes to its machine, or back to the end. -/
def dispatch (n : Node) (fail : Bool) : Node :=
  match n.pending with
  | [] => n
  | e :: rest =>
    if fail then { n with pending := rest }
    else
      match n.states e.txID with
      | none => { n with pending := rest ++ [e] }
      | some i =>
        match n.machines i with
        | none => n
        | some m => { n with
            pending := rest
            machines := n.machines.set i { m with events := m.events ++ [e] } }

/-- A step of one machine. -/
def stepMachine (n : Node) (i : Nat) (f : Faults) : Except Panic Node :=
  match n.machines i with
  | none => .ok n
  | some m => do
      let (store, m') ← m.step s f n.store
      .ok { n with store := store, machines := n.machines.set i m' }

/-- One input. -/
def step (n : Node) : Input → Except Panic Node
  | .addTransaction tx evidences => n.addTransaction s tx evidences
  | .deliver data => .ok (n.deliver data)
  | .message msg => .ok (n.message msg)
  | .createObject object f =>
    if object = [] then .ok n
    else .ok { n with
      store := (n.store.update f.db (·.createObject (s.hash object) object)).1 }
  | .dispatch fail => .ok (n.dispatch fail)
  | .step i f => n.stepMachine s i f
  | .restart => .ok { n with
      machines := .empty
      states := .empty
      pending := [] }

end Node

/-- What a node can reach, with events that keep to a condition. -/
inductive Run (s : Service) (ok : Event → Prop) (store : Store) : Node → Prop
  | start : Run s ok store (.new store)
  | step {n n' : Node} {input : Input} (hrun : Run s ok store n)
      (hok : ∀ e, input.event = some e → ok e) (h : n.step s input = .ok n') : Run s ok store n'

end Chainspace.Sbac.Wire
