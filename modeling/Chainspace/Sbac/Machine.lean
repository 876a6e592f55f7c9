/-
  Chainspace.Sbac.Machine — the state machine of a transaction on a node
  (`sbac/state_machine.go`, `sbac/states.go`).

  Every transaction has a goroutine of its own, and the machines of a node share one store. A step
  contains at most one badger transaction, so any interleaving of the goroutines is one of steps.
  `Pc` says where in the code a machine stands. A store call can fail (`Faults.db`), and so can the
  encoding of a message (`Faults.marshal`).
-/
import Chainspace.Sbac.Service
import Chainspace.Sbac.Store

namespace Chainspace.Sbac

open Chainspace.Lib

/-! ## §1. The table of transitions. -/

/-- The functions of the transition table. -/
inductive Transition
  | toRejectPhase1Broadcasted
  | toAborted
  | toObjectDeactivated
  | toObjectsCreated
  | toSucceeded
  | toObjectLocked
  | toAcceptPhase1Broadcasted
  | toWaitingForPhase1
  | toConsensus2Triggered
  | toWaitingForConsensus2
  | toAcceptPhase2Broadcasted
  | toRejectPhase2Broadcasted
  | toWaitingForPhase2
  | toCommitObjectsBroadcasted
  | toConsensusCommitTriggered
  | toWaitingForConsensusCommit
  deriving DecidableEq, Repr

def transitionTable : State → State → Option Transition
  | .waitingForConsensus1, .rejectPhase1Broadcasted => some .toRejectPhase1Broadcasted
  | .rejectPhase1Broadcasted, .aborted => some .toAborted
  | .objectLocked, .aborted => some .toAborted
  | .objectLocked, .objectsDeactivated => some .toObjectDeactivated
  | .objectsDeactivated, .objectsCreated => some .toObjectsCreated
  | .objectsCreated, .succeeded => some .toSucceeded
  | .waitingForConsensus1, .objectLocked => some .toObjectLocked
  | .objectLocked, .acceptPhase1Broadcasted => some .toAcceptPhase1Broadcasted
  | .acceptPhase1Broadcasted, .waitingForPhase1 => some .toWaitingForPhase1
  | .waitingForPhase1, .aborted => some .toAborted
  | .waitingForPhase1, .consensus2Triggered => some .toConsensus2Triggered
  | .consensus2Triggered, .waitingForConsensus2 => some .toWaitingForConsensus2
  | .waitingForConsensus2, .acceptPhase2Broadcasted => some .toAcceptPhase2Broadcasted
  | .waitingForConsensus2, .rejectPhase2Broadcasted => some .toRejectPhase2Broadcasted
  | .rejectPhase2Broadcasted, .aborted => some .toAborted
  | .acceptPhase2Broadcasted, .waitingForPhase2 => some .toWaitingForPhase2
  | .waitingForPhase2, .aborted => some .toAborted
  | .waitingForPhase2, .objectsDeactivated => some .toObjectDeactivated
  | .objectsCreated, .commitObjectsBroadcasted => some .toCommitObjectsBroadcasted
  | .commitObjectsBroadcasted, .aborted => some .toAborted
  | .commitObjectsBroadcasted, .succeeded => some .toSucceeded
  | .waitingForCommit, .consensusCommitTriggered => some .toConsensusCommitTriggered
  | .waitingForCommit, .aborted => some .toAborted
  | .consensusCommitTriggered, .waitingForConsensusCommit => some .toWaitingForConsensusCommit
  | .waitingForConsensusCommit, .objectsCreated => some .toObjectsCreated
  | .waitingForConsensusCommit, .aborted => some .toAborted
  | _, _ => none

/-- The states with an entry in `actionTable`: a machine does something when it is woken. -/
def State.hasAction : State → Bool
  | .waitingForConsensus1 | .waitingForConsensus2 | .waitingForPhase1 | .waitingForPhase2
  | .waitingForCommit | .waitingForConsensusCommit => true
  | _ => false

/-! ## §2. The data of a machine. -/

structure DetailTx where
  id : Bytes
  tx : Transaction
  evidences : Evidences
  hashID : Nat

/-- Where the goroutine of a machine stands. -/
inductive Pc
  /-- waiting for an event -/
  | idle
  /-- at the head of the loop of `moveState` -/
  | moving
  /-- in the loop of `onWaitingForConsensus1`, with the traces still to check -/
  | checking (rest : List Trace)
  /-- at the head of the loop of `applyTransition` -/
  | applying (target : State)
  /-- in `toAborted`, after `UnlockObjects` -/
  | unlocked

/-- `StateMachine` and its `States`. -/
structure Machine where
  detail : DetailTx
  consensus : ConsensusOp → StateConsensus
  sbac : SBACOp → SBACStateMachine
  state : State
  pc : Pc
  events : List Event

def Machine.new (detail : DetailTx) (initial : State) : Machine where
  detail := detail
  consensus := fun _ => .waiting
  sbac := fun _ => .new
  state := initial
  pc := .idle
  events := []

/-- What can fail in a step. -/
structure Faults where
  db : Bool
  marshal : Bool
  deriving DecidableEq, Repr

/-- What a step does to the world outside the machine.  A store call carries its success. -/
inductive Act
  | start (initial : State)
  | lock (ok : Bool)
  | unlock (ok : Bool)
  | deactivate (ok : Bool)
  | create (ok : Bool)
  | finish
  | send (msg : SBACMessage) (shards : List Nat)
  | propose (data : ConsensusTransaction)

/-! ## §3. The functions of the table. -/

section Transitions
variable (s : Service) (f : Faults) (d : DetailTx)

/-- What a transition function leaves: the store, the state returned (`none` for an error) and what
it did. -/
structure Applied where
  store : Store
  next : Option State
  act : Option Act

def toObjectLocked (store : Store) : Applied :=
  let (objects, allInShard) := s.inputObjectsForShard d.tx
  match store.update f.db (·.lockObjects objects) with
  | (store, some _) => ⟨store, some .aborted, some (.lock false)⟩
  | (store, none) =>
    ⟨store, some (if allInShard then .objectsDeactivated else .acceptPhase1Broadcasted),
      some (.lock true)⟩

def toObjectDeactivated (store : Store) : Applied :=
  match store.update f.db (·.deactivateObjects (s.inputObjectsForShard d.tx).1) with
  | (store, some _) => ⟨store, some .aborted, some (.deactivate false)⟩
  | (store, none) => ⟨store, some .objectsCreated, some (.deactivate true)⟩

def toObjectsCreated (store : Store) : Applied :=
  let (objects, allInShard) := s.outputObjectsForShard d.tx
  match store.update f.db (·.createObjects objects) with
  | (store, some _) => ⟨store, none, some (.create false)⟩
  | (store, none) =>
    ⟨store, some (if allInShard then .succeeded else .commitObjectsBroadcasted),
      some (.create true)⟩

/-- `toSucceeded`: a failing `FinishTransaction` is logged only. -/
def toSucceeded (store : Store) : Applied :=
  ⟨(store.update f.db (fun st => .ok (st.finishTransaction d.id))).1, some .succeeded,
    some .finish⟩

def signSBACMessage (op : SBACOp) (decision : SBACDecision) : SBACMessage where
  op := op
  decision := decision
  txID := d.id
  tx := d.tx
  evidences := d.evidences
  signature := s.sign (s.marshal d.tx)
  peerID := s.nodeID

/-- The functions that sign a decision and send it to other shards. -/
def sendDecision (op : SBACOp) (decision : SBACDecision) (shards : List Nat) (next : State)
    (store : Store) : Applied :=
  if f.marshal then ⟨store, some .aborted, none⟩
  else ⟨store, some next, some (.send (signSBACMessage s d op decision) shards)⟩

def toRejectPhase1Broadcasted : Store → Applied :=
  sendDecision s f d .phase1 .reject (s.shardsInvolvedWithoutSelf d.tx) .aborted

def toAcceptPhase1Broadcasted : Store → Applied :=
  sendDecision s f d .phase1 .accept (s.shardsInvolvedWithoutSelf d.tx) .waitingForPhase1

def toRejectPhase2Broadcasted : Store → Applied :=
  sendDecision s f d .phase2 .reject (s.shardsInvolvedWithoutSelf d.tx) .aborted

def toAcceptPhase2Broadcasted : Store → Applied :=
  sendDecision s f d .phase2 .accept (s.shardsInvolvedWithoutSelf d.tx) .waitingForPhase2

def toCommitObjectsBroadcasted : Store → Applied :=
  sendDecision s f d .commit .accept (s.commitShards d.tx) .succeeded

/-- The functions that start a consensus of the own shard, on the node chosen for it. -/
def triggerConsensus (op : ConsensusOp) (next : State) (store : Store) : Applied :=
  if s.isNodeInitiatingBroadcast d.hashID then
    if f.marshal then ⟨store, none, none⟩
    else ⟨store, some next, some (.propose ⟨d.id, d.tx, d.evidences, op, s.nodeID⟩)⟩
  else ⟨store, some next, none⟩

def toConsensus2Triggered : Store → Applied :=
  triggerConsensus s f d .consensus2 .waitingForConsensus2

def toConsensusCommitTriggered : Store → Applied :=
  triggerConsensus s f d .consensusCommit .waitingForConsensusCommit

/-- The first badger transaction of `toAborted`; its error is logged only. -/
def unlockInputs (store : Store) : Store × Act :=
  match store.update f.db (·.unlockObjects (s.inputObjectsForShard d.tx).1) with
  | (store, some _) => (store, .unlock false)
  | (store, none) => (store, .unlock true)

/-- The transition functions, `toAborted` apart: that one takes two steps. -/
def callTransition (store : Store) : Transition → Applied
  | .toRejectPhase1Broadcasted => toRejectPhase1Broadcasted s f d store
  | .toAborted => ⟨store, none, none⟩
  | .toObjectDeactivated => toObjectDeactivated s f d store
  | .toObjectsCreated => toObjectsCreated s f d store
  | .toSucceeded => toSucceeded f d store
  | .toObjectLocked => toObjectLocked s f d store
  | .toAcceptPhase1Broadcasted => toAcceptPhase1Broadcasted s f d store
  | .toWaitingForPhase1 => ⟨store, some .waitingForPhase1, none⟩
  | .toConsensus2Triggered => toConsensus2Triggered s f d store
  | .toWaitingForConsensus2 => ⟨store, some .waitingForConsensus2, none⟩
  | .toAcceptPhase2Broadcasted => toAcceptPhase2Broadcasted s f d store
  | .toRejectPhase2Broadcasted => toRejectPhase2Broadcasted s f d store
  | .toWaitingForPhase2 => ⟨store, some .waitingForPhase2, none⟩
  | .toCommitObjectsBroadcasted => toCommitObjectsBroadcasted s f d store
  | .toConsensusCommitTriggered => toConsensusCommitTriggered s f d store
  | .toWaitingForConsensusCommit => ⟨store, some .waitingForConsensusCommit, none⟩

end Transitions

/-! ## §4. One step. -/

/-- `onWaitingForPhase1`, `onWaitingForPhase2`, `onWaitingForCommit`. -/
def onWaitingForPhase (c : StateSBAC) (waiting accepted : State) : State :=
  match c with
  | .rejected => .aborted
  | .waiting => waiting
  | .accepted => accepted

def onWaitingForConsensus (c : StateConsensus) (waiting rejected accepted : State) : State :=
  match c with
  | .waiting => waiting
  | .rejected => rejected
  | .accepted => accepted

/-- `objectsExists` and the test of the statuses: the trace can go ahead. -/
def Service.traceUsable (s : Service) (fail : Bool) (store : Store) (t : Trace) : Bool :=
  if fail then false
  else
    match store.getObjects ((t.inputObjectVersionIDs ++ t.inputReferenceVersionIDs).filter
        fun v => s.shardForVersionID v = s.shardID) with
    | .error _ => false
    | .ok objects => objects.all fun o => o.status ≠ .inactive

namespace Machine

variable (s : Service)

/-- `StateMachine.processEvent`: the event goes to the small machine of its kind, unless it is of
another transaction. -/
def processEvent (m : Machine) (e : Event) : Option Machine :=
  if e.txID ≠ m.detail.id then some m
  else
    match e with
    | .consensus data => do
        let c ← (m.consensus data.op).processEvent s data
        some { m with consensus := fun op => if op = data.op then c else m.consensus op }
    | .sbac msg => do
        let c ← (m.sbac msg.op).processEvent s m.detail.tx msg
        some { m with sbac := fun op => if op = msg.op then c else m.sbac op }

/-- The end of an iteration of `moveState`, when the action has returned a state. -/
def moveTo (m : Machine) (newstate : State) : Machine :=
  if newstate = m.state then { m with pc := .idle }
  else if (transitionTable m.state newstate).isSome then { m with pc := .applying newstate }
  else { m with state := newstate, pc := .moving }

/-- An iteration of `moveState`: the action of the current state, if it has one. -/
def move (m : Machine) : Machine :=
  match m.state with
  | .waitingForConsensus1 =>
    match m.consensus .consensus1 with
    | .waiting => m.moveTo .waitingForConsensus1
    | .rejected => m.moveTo .rejectPhase1Broadcasted
    | .accepted => { m with pc := .checking m.detail.tx.traces }
  | .waitingForConsensus2 =>
    m.moveTo (onWaitingForConsensus (m.consensus .consensus2) .waitingForConsensus2
      .rejectPhase2Broadcasted .acceptPhase2Broadcasted)
  | .waitingForPhase1 =>
    m.moveTo (onWaitingForPhase (m.sbac .phase1).state .waitingForPhase1 .consensus2Triggered)
  | .waitingForPhase2 =>
    m.moveTo (onWaitingForPhase (m.sbac .phase2).state .waitingForPhase2 .objectsDeactivated)
  | .waitingForCommit =>
    m.moveTo (onWaitingForPhase (m.sbac .commit).state .waitingForCommit
      .consensusCommitTriggered)
  | .waitingForConsensusCommit =>
    m.moveTo (onWaitingForConsensus (m.consensus .consensusCommit) .waitingForConsensusCommit
      .aborted .objectsCreated)
  | _ => { m with pc := .idle }

/-- One step of the goroutine of a machine.  `none`: it waits, or the step ends the process. -/
def step (f : Faults) (store : Store) (m : Machine) : Option (Store × Machine × Option Act) :=
  match m.pc with
  | .idle =>
    match m.events with
    | [] => none
    | e :: rest => do
        let m' ← { m with events := rest }.processEvent s e
        let pc := if m.state = .succeeded ∨ m.state = .aborted then Pc.idle else Pc.moving
        some (store, { m' with pc := pc }, none)
  | .moving => some (store, m.move, none)
  | .checking [] => some (store, m.moveTo .objectLocked, none)
  | .checking (t :: rest) =>
    if s.traceUsable f.db store t then some (store, { m with pc := .checking rest }, none)
    else some (store, m.moveTo .rejectPhase1Broadcasted, none)
  | .applying target =>
    match transitionTable m.state target with
    | none => some (store, { m with pc := .moving }, none)
    | some .toAborted =>
      let (store, act) := unlockInputs s f m.detail store
      some (store, { m with pc := .unlocked }, some act)
    | some t =>
      let r := callTransition s f m.detail store t
      match r.next with
      | none => some (r.store, { m with pc := .moving }, r.act)
      | some next => some (r.store, { m with state := target, pc := .applying next }, r.act)
  | .unlocked =>
    some ((store.update f.db (fun st => .ok (st.finishTransaction m.detail.id))).1,
      { m with state := .aborted, pc := .applying .aborted }, some .finish)

end Machine

/-! ## §5. What a step can do. -/

/-- The outcomes of `Machine.step`, with the guards under which they are taken. -/
inductive Machine.Steps (s : Service) (f : Faults) (store : Store) (m : Machine) :
    Store → Machine → Option Act → Prop
  | consume (e : Event) (rest : List Event) (m1 : Machine) (hpc : m.pc = .idle)
      (hevents : m.events = e :: rest)
      (h : Machine.processEvent s { m with events := rest } e = some m1) :
      Steps s f store m store
        { m1 with pc := if m.state = .succeeded ∨ m.state = .aborted then .idle else .moving } none
  | move (hpc : m.pc = .moving) : Steps s f store m store m.move none
  | checked (hpc : m.pc = .checking []) : Steps s f store m store (m.moveTo .objectLocked) none
  | check (t : Trace) (rest : List Trace) (hpc : m.pc = .checking (t :: rest))
      (h : s.traceUsable f.db store t = true) :
      Steps s f store m store { m with pc := .checking rest } none
  | unusable (t : Trace) (rest : List Trace) (hpc : m.pc = .checking (t :: rest))
      (h : s.traceUsable f.db store t = false) :
      Steps s f store m store (m.moveTo .rejectPhase1Broadcasted) none
  | stay (target : State) (hpc : m.pc = .applying target)
      (h : transitionTable m.state target = none) :
      Steps s f store m store { m with pc := .moving } none
  | unlock (target : State) (hpc : m.pc = .applying target)
      (h : transitionTable m.state target = some .toAborted) :
      Steps s f store m (unlockInputs s f m.detail store).1 { m with pc := .unlocked }
        (some (unlockInputs s f m.detail store).2)
  | failed (target : State) (t : Transition) (hpc : m.pc = .applying target)
      (h : transitionTable m.state target = some t) (hne : t ≠ .toAborted)
      (hnext : (callTransition s f m.detail store t).next = none) :
      Steps s f store m (callTransition s f m.detail store t).store { m with pc := .moving }
        (callTransition s f m.detail store t).act
  | applied (target next : State) (t : Transition) (hpc : m.pc = .applying target)
      (h : transitionTable m.state target = some t) (hne : t ≠ .toAborted)
      (hnext : (callTransition s f m.detail store t).next = some next) :
      Steps s f store m (callTransition s f m.detail store t).store
        { m with state := target, pc := .applying next } (callTransition s f m.detail store t).act
  | finished (hpc : m.pc = .unlocked) :
      Steps s f store m
        (store.update f.db (fun st => .ok (st.finishTransaction m.detail.id))).1
        { m with state := .aborted, pc := .applying .aborted } (some .finish)

section Steps
variable {s : Service} {f : Faults} {store store' : Store} {m m' : Machine} {act : Option Act}

theorem Machine.step_cases (h : m.step s f store = some (store', m', act)) :
    m.Steps s f store store' m' act := by
  unfold Machine.step at h
  split at h
  next hpc =>
    split at h
    · cases h
    next e rest hevents =>
      obtain ⟨m1, hm1, h⟩ := Option.bind_eq_some_iff.mp h
      cases h
      exact .consume e rest m1 hpc hevents hm1
  next hpc =>
    cases h
    exact .move hpc
  next hpc =>
    cases h
    exact .checked hpc
  next t rest hpc =>
    split at h
    next hu =>
      cases h
      exact .check t rest hpc hu
    next hu =>
      cases h
      exact .unusable t rest hpc (by simpa using hu)
  next target hpc =>
    split at h
    next ht =>
      cases h
      exact .stay target hpc ht
    next ht =>
      cases h
      exact .unlock target hpc ht
    next t hne ht =>
      dsimp only at h
      split at h
      next hnext =>
        cases h
        exact .failed target t hpc ht hne hnext
      next next hnext =>
        cases h
        exact .applied target next t hpc ht hne hnext
  next hpc =>
    cases h
    exact .finished hpc

variable {target : State}

section
variable (h : m.Steps s f store store' m' act)
include h

theorem Machine.Steps.of_stays
    (hpc : m.pc = .applying target) (ht : transitionTable m.state target = none) :
    m' = { m with pc := .moving } ∧ act = none := by
  cases h with
  | stay => exact ⟨rfl, rfl⟩
  | _ => simp_all

theorem Machine.Steps.of_aborts
    (hpc : m.pc = .applying target) (ht : transitionTable m.state target = some .toAborted) :
    m' = { m with pc := .unlocked } ∧ act = some (unlockInputs s f m.detail store).2 := by
  cases h with
  | unlock => exact ⟨rfl, rfl⟩
  | _ => simp_all

theorem Machine.Steps.of_calls (hpc : m.pc = .applying target) {t : Transition}
    (ht : transitionTable m.state target = some t) (hne : t ≠ .toAborted) :
    store' = (callTransition s f m.detail store t).store ∧
      act = (callTransition s f m.detail store t).act ∧
      ((callTransition s f m.detail store t).next = none ∧ m' = { m with pc := .moving } ∨
        ∃ next, (callTransition s f m.detail store t).next = some next ∧
          m' = { m with state := target, pc := .applying next }) := by
  cases h with
  | failed target' t' hpc' ht' _ hnext =>
    cases hpc.symm.trans hpc'
    cases ht.symm.trans ht'
    exact ⟨rfl, rfl, .inl ⟨hnext, rfl⟩⟩
  | applied target' next t' hpc' ht' _ hnext =>
    cases hpc.symm.trans hpc'
    cases ht.symm.trans ht'
    exact ⟨rfl, rfl, .inr ⟨next, hnext, rfl⟩⟩
  | _ => simp_all

end

theorem Machine.moveTo_same (m : Machine) (st : State) :
    m.moveTo st = { m with state := (m.moveTo st).state, pc := (m.moveTo st).pc } := by
  unfold Machine.moveTo
  split
  · rfl
  · split
    all_goals rfl

/-- An action whose result is the same state or in the table changes the position only. -/
theorem Machine.moveTo_eq {st : State}
    (h : st = m.state ∨ (transitionTable m.state st).isSome = true) :
    m.moveTo st = { m with pc := if st = m.state then .idle else .applying st } := by
  unfold Machine.moveTo
  by_cases hst : st = m.state
  · rw [if_pos hst, if_pos hst]
  · rw [if_neg hst, if_neg hst, if_pos (h.resolve_left hst)]

/-- **An action changes the position only**: the machine waits, checks its inputs, or is about to
apply a transition. -/
theorem Machine.move_cases (m : Machine) :
    ∃ pc, m.move = { m with pc := pc } ∧ (pc = .idle ∨ (∃ rest, pc = .checking rest) ∨
      ∃ target, pc = .applying target ∧ (transitionTable m.state target).isSome = true) := by
  have hmove : ∀ st, (st = m.state ∨ (transitionTable m.state st).isSome = true) →
      ∃ pc, m.moveTo st = { m with pc := pc } ∧ (pc = .idle ∨ (∃ rest, pc = .checking rest) ∨
        ∃ target, pc = .applying target ∧ (transitionTable m.state target).isSome = true) := by
    intro st h
    refine ⟨_, moveTo_eq h, ?_⟩
    by_cases hst : st = m.state
    · rw [if_pos hst]
      exact .inl rfl
    · rw [if_neg hst]
      exact .inr (.inr ⟨st, rfl, h.resolve_left hst⟩)
  unfold Machine.move
  split
  next hs =>
    split
    · exact hmove _ (.inl hs.symm)
    · exact hmove _ (.inr (by rw [hs]; rfl))
    · exact ⟨_, rfl, .inr (.inl ⟨_, rfl⟩)⟩
  -- The other actions wait, or return one of two states of the table.
  case h_7 => exact ⟨.idle, rfl, .inl rfl⟩
  all_goals
    next hs =>
      simp only [onWaitingForPhase, onWaitingForConsensus]
      split
      all_goals first
        | exact hmove _ (.inl hs.symm)
        | exact hmove _ (.inr (by rw [hs]; rfl))

theorem Machine.move_detail (m : Machine) : m.move.detail = m.detail := by
  obtain ⟨pc, h, _⟩ := m.move_cases
  rw [h]

theorem Machine.processEvent_cases {e : Event} (h : m.processEvent s e = some m') : m' = m ∨
      (∃ data c, e = .consensus data ∧ data.txID = m.detail.id ∧
        (m.consensus data.op).processEvent s data = some c ∧
        m' = { m with consensus := fun op => if op = data.op then c else m.consensus op }) ∨
      (∃ msg c, e = .sbac msg ∧ msg.txID = m.detail.id ∧
        (m.sbac msg.op).processEvent s m.detail.tx msg = some c ∧
        m' = { m with sbac := fun op => if op = msg.op then c else m.sbac op }) := by
  unfold Machine.processEvent at h
  split at h
  · injection h with h
    exact .inl h.symm
  next hid =>
    have hid := not_not.mp hid
    cases e with
    | consensus data =>
      obtain ⟨c, hc, h⟩ := Option.bind_eq_some_iff.mp h
      injection h with h
      exact .inr (.inl ⟨data, c, rfl, hid, hc, h.symm⟩)
    | sbac msg =>
      obtain ⟨c, hc, h⟩ := Option.bind_eq_some_iff.mp h
      injection h with h
      exact .inr (.inr ⟨msg, c, rfl, hid, hc, h.symm⟩)

theorem Machine.processEvent_same {e : Event} (h : m.processEvent s e = some m') :
    m'.detail = m.detail ∧ m'.state = m.state ∧ m'.pc = m.pc ∧ m'.events = m.events := by
  rcases processEvent_cases h with h | ⟨data, c, _, _, _, h⟩ | ⟨msg, c, _, _, _, h⟩
  all_goals
    rw [h]
    exact ⟨rfl, rfl, rfl, rfl⟩

section
variable (h : m.Steps s f store store' m' act)
include h

/-- **A machine at rest consumes an event; other steps change state and position only.** -/
theorem Machine.Steps.same :
    (m.pc = .idle ∧ ∃ e rest m1 pc, m.events = e :: rest ∧
        Machine.processEvent s { m with events := rest } e = some m1 ∧ m' = { m1 with pc := pc }) ∨
      m' = { m with state := m'.state, pc := m'.pc } := by
  cases h with
  | consume e rest m1 hpc hevents h => exact .inl ⟨hpc, e, rest, m1, _, hevents, h, rfl⟩
  | move =>
    obtain ⟨pc, heq, _⟩ := m.move_cases
    exact .inr (by rw [heq])
  | checked | unusable => exact .inr (moveTo_same m _)
  | _ => exact .inr rfl

theorem Machine.Steps.detail : m'.detail = m.detail := by
  rcases h.same with ⟨_, e, rest, m1, pc, _, hev, heq⟩ | heq
  · rw [heq]
    exact (processEvent_same hev).1
  · rw [heq]

theorem Machine.Steps.events : ∀ e ∈ m'.events, e ∈ m.events := by
  intro x hx
  rcases h.same with ⟨_, e, rest, m1, pc, hevents, hev, heq⟩ | heq
  · have hrest : m1.events = rest := (processEvent_same hev).2.2.2
    rw [heq] at hx
    rw [hevents, ← hrest]
    exact List.mem_cons_of_mem e hx
  · rw [heq] at hx
    exact hx

theorem Machine.Steps.sbac : m'.sbac = m.sbac ∨
      ∃ msg c, Event.sbac msg ∈ m.events ∧ msg.txID = m.detail.id ∧
        (m.sbac msg.op).processEvent s m.detail.tx msg = some c ∧
        m'.sbac = fun op => if op = msg.op then c else m.sbac op := by
  rcases h.same with ⟨_, e, rest, m1, pc, hevents, hev, heq⟩ | heq
  · subst heq
    rcases processEvent_cases hev with hm1 | ⟨_, _, _, _, _, hm1⟩ | ⟨msg, c, he, hid, hc, hm1⟩
    · exact .inl (by rw [hm1])
    · exact .inl (by rw [hm1])
    · subst he
      exact .inr ⟨msg, c, hevents ▸ List.mem_cons_self, hid, hc, by rw [hm1]⟩
  · exact .inl (by rw [heq])

theorem Machine.Steps.consensus : m'.consensus = m.consensus ∨
      ∃ data c, Event.consensus data ∈ m.events ∧ data.txID = m.detail.id ∧
        (m.consensus data.op).processEvent s data = some c ∧
        m'.consensus = fun op => if op = data.op then c else m.consensus op := by
  rcases h.same with ⟨_, e, rest, m1, pc, hevents, hev, heq⟩ | heq
  · subst heq
    rcases processEvent_cases hev with hm1 | ⟨data, c, he, hid, hc, hm1⟩ | ⟨_, _, _, _, _, hm1⟩
    · exact .inl (by rw [hm1])
    · subst he
      exact .inr ⟨data, c, hevents ▸ List.mem_cons_self, hid, hc, by rw [hm1]⟩
    · exact .inl (by rw [hm1])
  · exact .inl (by rw [heq])

end

end Steps

/-! ## §6. What a transition can do. -/

def Transition.target : Transition → State
  | .toRejectPhase1Broadcasted => .rejectPhase1Broadcasted
  | .toAborted => .aborted
  | .toObjectDeactivated => .objectsDeactivated
  | .toObjectsCreated => .objectsCreated
  | .toSucceeded => .succeeded
  | .toObjectLocked => .objectLocked
  | .toAcceptPhase1Broadcasted => .acceptPhase1Broadcasted
  | .toWaitingForPhase1 => .waitingForPhase1
  | .toConsensus2Triggered => .consensus2Triggered
  | .toWaitingForConsensus2 => .waitingForConsensus2
  | .toAcceptPhase2Broadcasted => .acceptPhase2Broadcasted
  | .toRejectPhase2Broadcasted => .rejectPhase2Broadcasted
  | .toWaitingForPhase2 => .waitingForPhase2
  | .toCommitObjectsBroadcasted => .commitObjectsBroadcasted
  | .toConsensusCommitTriggered => .consensusCommitTriggered
  | .toWaitingForConsensusCommit => .waitingForConsensusCommit

def Transition.sources : Transition → List State
  | .toRejectPhase1Broadcasted => [.waitingForConsensus1]
  | .toAborted => [.rejectPhase1Broadcasted, .objectLocked, .waitingForPhase1,
      .rejectPhase2Broadcasted, .waitingForPhase2, .commitObjectsBroadcasted, .waitingForCommit,
      .waitingForConsensusCommit]
  | .toObjectDeactivated => [.objectLocked, .waitingForPhase2]
  | .toObjectsCreated => [.objectsDeactivated, .waitingForConsensusCommit]
  | .toSucceeded => [.objectsCreated, .commitObjectsBroadcasted]
  | .toObjectLocked => [.waitingForConsensus1]
  | .toAcceptPhase1Broadcasted => [.objectLocked]
  | .toWaitingForPhase1 => [.acceptPhase1Broadcasted]
  | .toConsensus2Triggered => [.waitingForPhase1]
  | .toWaitingForConsensus2 => [.consensus2Triggered]
  | .toAcceptPhase2Broadcasted => [.waitingForConsensus2]
  | .toRejectPhase2Broadcasted => [.waitingForConsensus2]
  | .toWaitingForPhase2 => [.acceptPhase2Broadcasted]
  | .toCommitObjectsBroadcasted => [.objectsCreated]
  | .toConsensusCommitTriggered => [.waitingForCommit]
  | .toWaitingForConsensusCommit => [.consensusCommitTriggered]

theorem transitionTable_iff {a b : State} {t : Transition} :
    transitionTable a b = some t ↔ a ∈ t.sources ∧ b = t.target := by
  constructor
  · intro h
    unfold transitionTable at h
    split at h
    all_goals first
      | (injection h with h; subst h; exact ⟨by decide, rfl⟩)
      | exact absurd h (by simp)
  intro h
  obtain ⟨hsource, htarget⟩ := h
  subst htarget
  cases t
  all_goals
    simp only [Transition.sources, List.mem_cons, List.not_mem_nil, or_false] at hsource
    first
      | (subst hsource; rfl)
      | (rcases hsource with h | h | h | h | h | h | h | h <;> subst h <;> rfl)
      | (rcases hsource with h | h <;> subst h <;> rfl)

/-- The functions that send a decision: phase, decision and the state that follows. -/
def Transition.sends : Transition → Option (SBACOp × SBACDecision × State)
  | .toRejectPhase1Broadcasted => some (.phase1, .reject, .aborted)
  | .toAcceptPhase1Broadcasted => some (.phase1, .accept, .waitingForPhase1)
  | .toRejectPhase2Broadcasted => some (.phase2, .reject, .aborted)
  | .toAcceptPhase2Broadcasted => some (.phase2, .accept, .waitingForPhase2)
  | .toCommitObjectsBroadcasted => some (.commit, .accept, .succeeded)
  | _ => none

/-- The functions that start a consensus, and the state that follows. -/
def Transition.triggers : Transition → Option State
  | .toConsensus2Triggered => some .waitingForConsensus2
  | .toConsensusCommitTriggered => some .waitingForConsensusCommit
  | _ => none

/-- The functions that do nothing but go on to wait. -/
def Transition.waits : Transition → Bool
  | .toWaitingForPhase1 | .toWaitingForConsensus2 | .toWaitingForPhase2
  | .toWaitingForConsensusCommit => true
  | _ => false

/-- What a transition function does: to the store, by its success, and for others. -/
inductive Called (s : Service) (f : Faults) (d : DetailTx) (store : Store) :
    Transition → Applied → Prop
  | locked (st : Store) (h : store.lockObjects (s.inputObjectsForShard d.tx).1 = .ok st) :
      Called s f d store .toObjectLocked ⟨st, some (if (s.inputObjectsForShard d.tx).2
        then .objectsDeactivated else .acceptPhase1Broadcasted), some (.lock true)⟩
  | lockFailed : Called s f d store .toObjectLocked ⟨store, some .aborted, some (.lock false)⟩
  | deactivated (st : Store)
      (h : store.deactivateObjects (s.inputObjectsForShard d.tx).1 = .ok st) :
      Called s f d store .toObjectDeactivated ⟨st, some .objectsCreated, some (.deactivate true)⟩
  | deactivateFailed :
      Called s f d store .toObjectDeactivated ⟨store, some .aborted, some (.deactivate false)⟩
  | created (st : Store) (h : store.createObjects (s.outputObjectsForShard d.tx).1 = .ok st) :
      Called s f d store .toObjectsCreated ⟨st, some (if (s.outputObjectsForShard d.tx).2
        then .succeeded else .commitObjectsBroadcasted), some (.create true)⟩
  | createFailed : Called s f d store .toObjectsCreated ⟨store, none, some (.create false)⟩
  | finished (finished : PMap Bytes Unit) : Called s f d store .toSucceeded
      ⟨{ store with finished := finished }, some .succeeded, some .finish⟩
  | sent (t : Transition) (op : SBACOp) (decision : SBACDecision) (shards : List Nat) (next : State)
      (hf : f.marshal = false) (h : t.sends = some (op, decision, next)) : Called s f d store t
        ⟨store, some next, some (.send (signSBACMessage s d op decision) shards)⟩
  | notSent (t : Transition) (hf : f.marshal = true) (h : t.sends.isSome = true) :
      Called s f d store t ⟨store, some .aborted, none⟩
  | triggered (t : Transition) (next : State) (act : Option Act)
      (hact : ∀ a ∈ act, ∃ data, a = .propose data) (h : t.triggers = some next) :
      Called s f d store t ⟨store, some next, act⟩
  | notTriggered (t : Transition) (hf : f.marshal = true) (h : t.triggers.isSome = true) :
      Called s f d store t ⟨store, none, none⟩
  | waits (t : Transition) (h : t.waits = true) : Called s f d store t ⟨store, some t.target, none⟩
  | aborts : Called s f d store .toAborted ⟨store, none, none⟩

section Called
variable {s : Service} {f : Faults} {d : DetailTx} {store : Store} {next : State} {t : Transition}

theorem sendDecision_called {op : SBACOp} {decision : SBACDecision}
    (ht : t.sends = some (op, decision, next)) (shards : List Nat) :
    Called s f d store t (sendDecision s f d op decision shards next store) := by
  unfold sendDecision
  split
  next hf => exact .notSent t hf (by rw [ht]; rfl)
  next hf => exact .sent t op decision shards next (by simpa using hf) ht

theorem triggerConsensus_called (ht : t.triggers = some next)
    (op : ConsensusOp) : Called s f d store t (triggerConsensus s f d op next store) := by
  unfold triggerConsensus
  split
  · split
    next hf => exact .notTriggered t hf (by rw [ht]; rfl)
    · exact .triggered t next _ (by simp) ht
  · exact .triggered t next none (by simp) ht

section
variable (s f d store)

theorem toObjectLocked_cases :
    (∃ st, store.lockObjects (s.inputObjectsForShard d.tx).1 = .ok st ∧
      toObjectLocked s f d store = ⟨st, some (if (s.inputObjectsForShard d.tx).2
        then .objectsDeactivated else .acceptPhase1Broadcasted), some (.lock true)⟩) ∨
      toObjectLocked s f d store = ⟨store, some .aborted, some (.lock false)⟩ := by
  unfold toObjectLocked
  rcases store.update_cases f.db (·.lockObjects (s.inputObjectsForShard d.tx).1) with
    ⟨st, _, hst, heq⟩ | ⟨e, heq, _⟩
  · exact .inl ⟨st, hst, by simp only [heq]⟩
  · exact .inr (by simp only [heq])

theorem toObjectDeactivated_cases :
    (∃ st, store.deactivateObjects (s.inputObjectsForShard d.tx).1 = .ok st ∧
      toObjectDeactivated s f d store = ⟨st, some .objectsCreated, some (.deactivate true)⟩) ∨
      (∃ e, (f.db = false → store.deactivateObjects (s.inputObjectsForShard d.tx).1 = .error e) ∧
        toObjectDeactivated s f d store = ⟨store, some .aborted, some (.deactivate false)⟩) := by
  unfold toObjectDeactivated
  rcases store.update_cases f.db (·.deactivateObjects (s.inputObjectsForShard d.tx).1) with
    ⟨st, _, hst, heq⟩ | ⟨e, heq, he⟩
  · exact .inl ⟨st, hst, by simp only [heq]⟩
  · exact .inr ⟨e, he, by simp only [heq]⟩

theorem toObjectsCreated_cases :
    (∃ st, store.createObjects (s.outputObjectsForShard d.tx).1 = .ok st ∧
      toObjectsCreated s f d store = ⟨st, some (if (s.outputObjectsForShard d.tx).2
        then .succeeded else .commitObjectsBroadcasted), some (.create true)⟩) ∨
      (∃ e, (f.db = false → store.createObjects (s.outputObjectsForShard d.tx).1 = .error e) ∧
        toObjectsCreated s f d store = ⟨store, none, some (.create false)⟩) := by
  unfold toObjectsCreated
  rcases store.update_cases f.db (·.createObjects (s.outputObjectsForShard d.tx).1) with
    ⟨st, _, hst, heq⟩ | ⟨e, heq, he⟩
  · exact .inl ⟨st, hst, by simp only [heq]⟩
  · exact .inr ⟨e, he, by simp only [heq]⟩

theorem callTransition_called (t : Transition) :
    Called s f d store t (callTransition s f d store t) := by
  cases t with
  | toObjectLocked =>
    show Called s f d store _ (toObjectLocked s f d store)
    rcases toObjectLocked_cases s f d store with ⟨st, hst, heq⟩ | heq
    · rw [heq]
      exact .locked st hst
    · rw [heq]
      exact .lockFailed
  | toObjectDeactivated =>
    show Called s f d store _ (toObjectDeactivated s f d store)
    rcases toObjectDeactivated_cases s f d store with ⟨st, hst, heq⟩ | ⟨e, _, heq⟩
    · rw [heq]
      exact .deactivated st hst
    · rw [heq]
      exact .deactivateFailed
  | toObjectsCreated =>
    show Called s f d store _ (toObjectsCreated s f d store)
    rcases toObjectsCreated_cases s f d store with ⟨st, hst, heq⟩ | ⟨e, _, heq⟩
    · rw [heq]
      exact .created st hst
    · rw [heq]
      exact .createFailed
  | toSucceeded =>
    show Called s f d store _ (toSucceeded f d store)
    unfold toSucceeded
    rcases store.update_cases f.db (fun st => .ok (st.finishTransaction d.id)) with
      ⟨st, _, hst, heq⟩ | ⟨e, heq, _⟩
    · injection hst with hst
      rw [heq, ← hst]
      exact .finished _
    · rw [heq]
      exact .finished store.finished
  | toRejectPhase1Broadcasted | toAcceptPhase1Broadcasted | toRejectPhase2Broadcasted
  | toAcceptPhase2Broadcasted | toCommitObjectsBroadcasted => exact sendDecision_called rfl _
  | toConsensus2Triggered | toConsensusCommitTriggered => exact triggerConsensus_called rfl _
  | toAborted => exact .aborts
  | toWaitingForPhase1 | toWaitingForConsensus2 | toWaitingForPhase2
  | toWaitingForConsensusCommit => exact .waits _ rfl

end

theorem callTransition_sends (s : Service) (d : DetailTx) (store : Store)
    {op : SBACOp} {decision : SBACDecision} (hf : f.marshal = false)
    (ht : t.sends = some (op, decision, next)) :
    ∃ shards, callTransition s f d store t =
      ⟨store, some next, some (.send (signSBACMessage s d op decision) shards)⟩ := by
  have hsent : ∀ shards, sendDecision s f d op decision shards next store =
      ⟨store, some next, some (.send (signSBACMessage s d op decision) shards)⟩ := by
    intro shards
    simp [sendDecision, hf]
  cases t
  all_goals first
    | (cases ht; done)
    | (cases ht
       exact ⟨_, hsent _⟩)

/-- A consensus that can be encoded is started, if it is this node's turn. -/
theorem callTransition_triggers (s : Service) (d : DetailTx) (store : Store)
    (hf : f.marshal = false) (ht : t.triggers = some next) :
    ∃ act, (∀ a ∈ act, ∃ data, a = .propose data) ∧
      callTransition s f d store t = ⟨store, some next, act⟩ := by
  have htrigger : ∀ op, ∃ act, (∀ a ∈ act, ∃ data, a = .propose data) ∧
      triggerConsensus s f d op next store = ⟨store, some next, act⟩ := by
    intro op
    unfold triggerConsensus
    split
    · refine ⟨_, ?_, if_neg (by simp [hf])⟩
      simp
    · exact ⟨none, by simp, rfl⟩
  cases t
  all_goals first
    | (cases ht; done)
    | (cases ht
       exact htrigger _)

theorem unlockInputs_cases (s : Service) (f : Faults) (d : DetailTx) (store : Store) :
    (∃ st, store.unlockObjects (s.inputObjectsForShard d.tx).1 = .ok st ∧
      unlockInputs s f d store = (st, .unlock true)) ∨
      unlockInputs s f d store = (store, .unlock false) := by
  unfold unlockInputs
  rcases store.update_cases f.db (·.unlockObjects (s.inputObjectsForShard d.tx).1) with
    ⟨st, _, hst, heq⟩ | ⟨e, heq, _⟩
  · exact .inl ⟨st, hst, by simp only [heq]⟩
  · exact .inr (by simp only [heq])

end Called

/-! ## §7. What a step can do to the store. -/

/-- The calls that change objects. -/
def Act.writes : Act → Bool
  | .lock ok | .unlock ok | .deactivate ok | .create ok => ok
  | _ => false

def Act.transition : Act → Option Transition
  | .lock _ => some .toObjectLocked
  | .unlock _ => some .toAborted
  | .deactivate _ => some .toObjectDeactivated
  | .create _ => some .toObjectsCreated
  | _ => none

/-- **The store calls of a machine**, each recorded with its success. -/
inductive StoreEffect (s : Service) (d : DetailTx) (store : Store) : Option Act → Store → Prop
  | quiet (act : Option Act) (finished : PMap Bytes Unit) (hact : ∀ a ∈ act, a.writes = false) :
      StoreEffect s d store act { store with finished := finished }
  | lock (st : Store) (h : store.lockObjects (s.inputObjectsForShard d.tx).1 = .ok st) :
      StoreEffect s d store (some (.lock true)) st
  | unlock (st : Store) (h : store.unlockObjects (s.inputObjectsForShard d.tx).1 = .ok st) :
      StoreEffect s d store (some (.unlock true)) st
  | deactivate (st : Store)
      (h : store.deactivateObjects (s.inputObjectsForShard d.tx).1 = .ok st) :
      StoreEffect s d store (some (.deactivate true)) st
  | create (st : Store) (h : store.createObjects (s.outputObjectsForShard d.tx).1 = .ok st) :
      StoreEffect s d store (some (.create true)) st

section Effects
variable {s : Service} {f : Faults} {d : DetailTx} {store store' : Store} {m m' : Machine}
  {act : Option Act} {t : Transition}

theorem Called.effect {r : Applied} (h : Called s f d store t r) :
    StoreEffect s d store r.act r.store := by
  cases h with
  | locked st hst => exact .lock st hst
  | deactivated st hst => exact .deactivate st hst
  | created st hst => exact .create st hst
  | finished fin => exact .quiet _ fin (by simp [Act.writes])
  | triggered t next act hact =>
    refine .quiet act store.finished ?_
    intro a ha
    obtain ⟨data, hdata⟩ := hact a ha
    rw [hdata]
    rfl
  | _ => exact .quiet _ store.finished (by simp [Act.writes])

/-- A `DeactivateObjects` that succeeds: no input was `INACTIVE` before, and each one is now. -/
theorem StoreEffect.deactivated (h : StoreEffect s d store (some (.deactivate true)) store')
    {o : Bytes} (ho : o ∈ (s.inputObjectsForShard d.tx).1) :
    store.statuses o ≠ some .inactive ∧ store'.statuses o = some .inactive := by
  cases h with
  | quiet _ finished hq => exact absurd (hq _ rfl) (by simp [Act.writes])
  | deactivate st hst =>
    obtain ⟨hkeys, heq⟩ := Store.deactivateObjects_ok hst
    refine ⟨hkeys o ho, ?_⟩
    rw [heq]
    show (if o ∈ _ then _ else _) = _
    rw [if_pos ho]

theorem Machine.Steps.effect (h : m.Steps s f store store' m' act) :
    StoreEffect s m.detail store act store' := by
  cases h with
  | unlock =>
    rcases unlockInputs_cases s f m.detail store with ⟨st, hst, heq⟩ | heq
    · rw [heq]
      exact .unlock st hst
    · rw [heq]
      exact .quiet _ store.finished (by simp [Act.writes])
  | failed _ t | applied _ _ t => exact (callTransition_called s f m.detail store t).effect
  | finished =>
    rcases store.update_cases f.db (fun st => .ok (st.finishTransaction m.detail.id)) with
      ⟨st, _, hst, heq⟩ | ⟨e, heq, _⟩
    · injection hst with hst
      rw [heq, ← hst]
      exact .quiet _ _ (by simp [Act.writes])
    · rw [heq]
      exact .quiet _ store.finished (by simp [Act.writes])
  | _ => exact .quiet _ store.finished (by simp)

theorem Called.transition {t' : Transition} {r : Applied} {a : Act} (h : Called s f d store t r)
    (ha : r.act = some a) (ht : a.transition = some t') : t' = t := by
  -- An act that is not a store call belongs to no function here.
  have hnone : a.transition = none → t' = t := fun hnone => by
    rw [hnone] at ht
    cases ht
  cases h with
  | triggered t next act hact =>
    obtain ⟨data, hdata⟩ := hact a ha
    exact hnone (by rw [hdata]; rfl)
  | notSent | notTriggered | waits | aborts => cases ha
  | sent | finished =>
    injection ha with ha
    exact hnone (by rw [← ha]; rfl)
  | _ =>
    injection ha with ha
    rw [← ha] at ht
    injection ht with ht
    exact ht.symm

/-- **A store call is made by its function of the table.** -/
theorem Machine.Steps.transition (h : m.Steps s f store store' m' act) {a : Act}
    (hact : act = some a) (ht : a.transition = some t) :
    ∃ target, m.pc = .applying target ∧ transitionTable m.state target = some t := by
  cases h with
  | unlock target hpc htable =>
    refine ⟨target, hpc, ?_⟩
    have hunlock : t = .toAborted := by
      injection hact with hact
      rcases unlockInputs_cases s f m.detail store with ⟨st, _, heq⟩ | heq
      all_goals
        rw [heq] at hact
        rw [← hact] at ht
        injection ht with ht
        exact ht.symm
    rw [hunlock]
    exact htable
  | failed target t' hpc htable | applied target next t' hpc htable =>
    have heq := (callTransition_called s f m.detail store t').transition hact ht
    exact ⟨target, hpc, heq ▸ htable⟩
  | finished =>
    injection hact with hact
    rw [← hact] at ht
    exact absurd ht (by simp [Act.transition])
  | _ => cases hact

/-- A decision is sent in the name of the node, about the machine's transaction. -/
theorem Machine.Steps.signed (h : m.Steps s f store store' m' act) {msg : SBACMessage}
    {shards : List Nat} (hact : act = some (.send msg shards)) :
    msg.peerID = s.nodeID ∧ msg.txID = m.detail.id := by
  have hcalled : ∀ {t r}, Called s f m.detail store t r → r.act = some (.send msg shards) →
      msg.peerID = s.nodeID ∧ msg.txID = m.detail.id := by
    intro t r hcall hact
    cases hcall with
    | sent =>
      injection hact with hact
      injection hact with hmsg _
      rw [← hmsg]
      exact ⟨rfl, rfl⟩
    | triggered t next act ha =>
      obtain ⟨data, hdata⟩ := ha _ hact
      cases hdata
    | _ => cases hact
  cases h with
  | unlock =>
    rcases unlockInputs_cases s f m.detail store with ⟨st, _, heq⟩ | heq
    all_goals
      rw [heq] at hact
      cases hact
  | failed _ t | applied _ _ t => exact hcalled (callTransition_called s f m.detail store t) hact
  | _ => cases hact

end Effects

end Chainspace.Sbac
