/-
  Chainspace.Sbac.Node — a node: its store, its machines and the events between them
  (`sbac/sbac.go`, `sbac/state_machine_scheduler.go`, `sbac/pending_events.go`).

  The inputs of a node are requests of clients and peers, transactions its shard has agreed on, the
  turns of its goroutines, and restarts, which lose everything but the store; since a process can
  end at any moment, a step that would end it is left out. Machines are numbered in the order of
  their creation, over restarts. The history and the messages received are kept for the proofs only.
-/
import Chainspace.Sbac.Machine

namespace Chainspace.Sbac

open Chainspace.Lib List

/-! ## §1. State. -/

structure Record where
  machine : Nat
  detail : DetailTx
  act : Act

structure Node where
  store : Store
  /-- the machines that exist, by number -/
  machines : PMap Nat Machine
  /-- the number of the next machine -/
  next : Nat
  /-- `StateMachineScheduler.states` -/
  states : PMap Bytes Nat
  /-- `pe`: events not yet given to a machine -/
  pending : List Event
  /-- what the machines did, newest first -/
  history : List Record
  /-- the messages other nodes have sent, newest first -/
  received : List SBACMessage

def Node.new (store : Store) : Node where
  store := store
  machines := .empty
  next := 0
  states := .empty
  pending := []
  history := []
  received := []

/-- What can happen to a node. -/
inductive Input
  /-- `handleAddTransaction` -/
  | addTransaction (tx : Transaction) (evidences : Evidences) (f : Faults)
  /-- `handleDeliver`, for one transaction of a block -/
  | deliver (data : ConsensusTransaction)
  /-- `handleSBAC` -/
  | message (msg : SBACMessage)
  /-- `handleCreateObject`, and each round of the loop of `handleCreateObjects` -/
  | createObject (object : Bytes) (f : Faults)
  /-- the goroutine of `pe` takes an event; the flag is a failing `TxnFinished` -/
  | dispatch (fail : Bool)
  /-- the goroutine of a machine takes a step -/
  | step (machine : Nat) (f : Faults)
  | restart

/-! ## §2. Transitions. -/

namespace Node

variable (s : Service)

/-- `StateMachineScheduler.Add`: a new machine, which replaces one for the same transaction. -/
def add (n : Node) (detail : DetailTx) (initial : State) : Node :=
  { n with
    machines := n.machines.set n.next (.new detail initial)
    next := n.next + 1
    states := n.states.set detail.id n.next
    history := ⟨n.next, detail, .start initial⟩ :: n.history }

def getOrCreate (n : Node) (detail : DetailTx) (initial : State) : Node :=
  if (n.states detail.id).isSome then n else n.add detail initial

def detailOf (id : Bytes) (tx : Transaction) (evidences : Evidences) : DetailTx where
  id := id
  tx := tx
  evidences := evidences
  hashID := Service.ID id

def addTransaction (n : Node) (tx : Transaction) (evidences : Evidences) (f : Faults) :
    Option Node := do
  let id := txIDOf s.hash tx
  let valid ← s.verifyEvidenceSignature (s.marshal tx) evidences
  if !valid then some n
  else
    let n' := n.add (detailOf id tx evidences) .waitingForConsensus1
    if f.marshal then some n'
    else some { n' with
      history := ⟨n.next, detailOf id tx evidences,
        .propose ⟨id, tx, evidences, .consensus1, s.nodeID⟩⟩ :: n'.history }

/-- `checkEvent` and `OnEvent` for a transaction the shard has agreed on. -/
def deliver (n : Node) (data : ConsensusTransaction) : Node :=
  let n := if data.op = .consensus1 then
      n.getOrCreate (detailOf data.txID data.tx data.evidences) .waitingForConsensus1
    else n
  { n with pending := n.pending ++ [.consensus data] }

def message (n : Node) (msg : SBACMessage) : Node :=
  let n := { n with received := msg :: n.received }
  let n := if msg.op = .commit then
      n.getOrCreate (detailOf msg.txID msg.tx msg.evidences) .waitingForCommit
    else n
  { n with pending := n.pending ++ [.sbac msg] }

/-- `consumeEvents` on the first pending event: it goes to the machine of its transaction, or is
queued again. -/
def dispatch (n : Node) (fail : Bool) : Option Node :=
  match n.pending with
  | [] => none
  | e :: rest =>
    if fail then some { n with pending := rest }
    else
      match n.states e.txID with
      | none => some { n with pending := rest ++ [e] }
      | some i =>
        match n.machines i with
        | none => none
        | some m => some { n with
            pending := rest
            machines := n.machines.set i { m with events := m.events ++ [e] } }

def stepMachine (n : Node) (i : Nat) (f : Faults) : Option Node :=
  match n.machines i with
  | none => none
  | some m => do
      let (store, m', act) ← m.step s f n.store
      some { n with
        store := store
        machines := n.machines.set i m'
        history := (act.toList.map fun a => ⟨i, m.detail, a⟩) ++ n.history }

def step (n : Node) : Input → Option Node
  | .addTransaction tx evidences f => n.addTransaction s tx evidences f
  | .deliver data => some (n.deliver data)
  | .message msg => some (n.message msg)
  | .createObject object f =>
    if object = [] then some n
    else some { n with
      store := (n.store.update f.db (·.createObject (s.hash object) object)).1 }
  | .dispatch fail => n.dispatch fail
  | .step i f => n.stepMachine s i f
  | .restart => some { n with
      machines := .empty
      states := .empty
      pending := [] }

end Node

/-- **A run of a node**: inputs in any order, each of which satisfies `ok`. -/
inductive NodeRun (s : Service) (ok : Node → Input → Prop) (store : Store) : Node → Prop
  | start : NodeRun s ok store (.new store)
  | step {n n' : Node} {input : Input} (hrun : NodeRun s ok store n) (hok : ok n input)
      (h : n.step s input = some n') : NodeRun s ok store n'

variable {n : Node} {ok : Node → Input → Prop} {s : Service} {store : Store} {detail : DetailTx}
  {initial : State} {input : Input}

theorem NodeRun.mono {ok' : Node → Input → Prop}
    (hrun : NodeRun s ok store n) (h : ∀ n input, ok n input → ok' n input) :
    NodeRun s ok' store n := by
  induction hrun with
  | start => exact .start
  | step _ hok hstep ih => exact ih.step (h _ _ hok) hstep

def Node.stepAll (s : Service) (n : Node) (inputs : List Input) : Option Node :=
  inputs.foldlM (fun n input => n.step s input) n

/-- The inputs of a list, one after the other, while `ok` allows them. -/
def Node.stepWhile (s : Service) (ok : Node → Input → Bool) (n : Node) (inputs : List Input) :
    Option Node :=
  inputs.foldlM (fun n input => if ok n input then n.step s input else none) n

theorem NodeRun.stepAll {n' : Node} (hrun : NodeRun s ok store n) {inputs : List Input}
    (hok : ∀ n, ∀ input ∈ inputs, ok n input) (h : n.stepAll s inputs = some n') :
    NodeRun s ok store n' :=
  foldlM_some_inv (NodeRun s ok store) hrun (fun x hx n _ hn h => hn.step (hok n x hx) h) h

theorem NodeRun.stepWhile {okb : Node → Input → Bool}
    {n' : Node} (hrun : NodeRun s ok store n) {inputs : List Input}
    (hok : ∀ n, ∀ input ∈ inputs, okb n input = true → ok n input)
    (h : n.stepWhile s okb inputs = some n') : NodeRun s ok store n' := by
  refine foldlM_some_inv (NodeRun s ok store) hrun ?_ h
  intro input hinput x y hx hy
  split at hy
  next hb => exact hx.step (hok x input hinput hb) hy
  · cases hy

/-! ## §3. What a step can do. -/

/-- The machine an input can create: its transaction and the state it starts in. -/
def Input.creates (s : Service) : Input → Option (DetailTx × State)
  | .addTransaction tx evidences _ =>
    some (Node.detailOf (txIDOf s.hash tx) tx evidences, .waitingForConsensus1)
  | .deliver data =>
    if data.op = .consensus1 then
      some (Node.detailOf data.txID data.tx data.evidences, .waitingForConsensus1)
    else none
  | .message msg =>
    if msg.op = .commit then
      some (Node.detailOf msg.txID msg.tx msg.evidences, .waitingForCommit)
    else none
  | _ => none

/-- The machine an input does create: only a client can have a second one made. -/
def Node.creates (s : Service) (n : Node) (input : Input) : Option (DetailTx × State) :=
  match input with
  | .addTransaction _ _ _ => input.creates s
  | _ => (input.creates s).filter fun d => (n.states d.1.id).isNone

theorem Node.creates_iff : n.creates s input = some (detail, initial) ↔
      input.creates s = some (detail, initial) ∧
        (n.states detail.id = none ∨ ∃ tx evidences f, input = .addTransaction tx evidences f) := by
  unfold Node.creates
  split
  next tx evidences f => exact ⟨fun h => ⟨h, .inr ⟨tx, evidences, f, rfl⟩⟩, fun h => h.1⟩
  next hadd =>
    rw [Option.filter_eq_some_iff, Option.isNone_iff_eq_none]
    constructor
    · intro h
      exact ⟨h.1, .inl h.2⟩
    rintro ⟨h, hnone | ⟨tx, evidences, f, heq⟩⟩
    · exact ⟨h, hnone⟩
    · exact absurd heq (hadd tx evidences f)

/-- **What creates a machine**: a client's request, or the first consensus, starts it with that
consensus; a commit of other shards starts it behind theirs. -/
theorem Input.creates_cases (h : input.creates s = some (detail, initial)) :
    (∃ tx evidences f, input = .addTransaction tx evidences f ∧
        detail = Node.detailOf (txIDOf s.hash tx) tx evidences ∧ initial = .waitingForConsensus1) ∨
      (∃ data, input = .deliver data ∧ data.op = .consensus1 ∧
        detail = Node.detailOf data.txID data.tx data.evidences ∧
        initial = .waitingForConsensus1) ∨
      ∃ msg, input = .message msg ∧ msg.op = .commit ∧
        detail = Node.detailOf msg.txID msg.tx msg.evidences ∧ initial = .waitingForCommit := by
  cases input with
  | addTransaction tx evidences f =>
    injection h with h
    injection h with hd hi
    exact .inl ⟨tx, evidences, f, rfl, hd.symm, hi.symm⟩
  | deliver data =>
    by_cases hop : data.op = .consensus1
    · simp only [Input.creates, hop, if_true] at h
      injection h with h
      injection h with hd hi
      exact .inr (.inl ⟨data, rfl, hop, hd.symm, hi.symm⟩)
    · simp [Input.creates, hop] at h
  | message msg =>
    by_cases hop : msg.op = .commit
    · simp only [Input.creates, hop, if_true] at h
      injection h with h
      injection h with hd hi
      exact .inr (.inr ⟨msg, rfl, hop, hd.symm, hi.symm⟩)
    · simp [Input.creates, hop] at h
  | _ => exact absurd h (by simp [Input.creates])

theorem Input.creates_initial (h : input.creates s = some (detail, initial)) :
    initial = .waitingForConsensus1 ∨ initial = .waitingForCommit := by
  rcases Input.creates_cases h with ⟨_, _, _, _, _, hi⟩ | ⟨_, _, _, _, hi⟩ | ⟨_, _, _, _, hi⟩
  · exact .inl hi
  · exact .inl hi
  · exact .inr hi

def Input.event : Input → Option Event
  | .deliver data => some (.consensus data)
  | .message msg => some (.sbac msg)
  | _ => none

def Input.msg : Input → Option SBACMessage
  | .message msg => some msg
  | _ => none

/-- The node after a step of its machine `i`. -/
abbrev Node.after (n : Node) (i : Nat) (m : Machine) (store : Store) (m' : Machine)
    (act : Option Act) : Node :=
  { n with
    store := store
    machines := n.machines.set i m'
    history := (act.toList.map fun a => ⟨i, m.detail, a⟩) ++ n.history }

/-- The outcomes of `Node.step`. -/
inductive Node.Steps (s : Service) (n : Node) : Input → Node → Prop
  /-- a request that changes nothing -/
  | same (input : Input) : Steps s n input n
  /-- something arrives: a machine may be created for it, and its event waits -/
  | arrive (input : Input) (n1 : Node) (proposals : List Record)
      (h1 : n1 = n ∨
        ∃ detail initial, input.creates s = some (detail, initial) ∧ n1 = n.add detail initial ∧
          (n.states detail.id = none ∨ ∃ tx evidences f, input = .addTransaction tx evidences f))
      (hproposals : ∀ r ∈ proposals, ∃ data, r.act = .propose data) :
      Steps s n input { n1 with
        pending := n.pending ++ input.event.toList
        received := input.msg.toList ++ n.received
        history := proposals ++ n1.history }
  | object (object : Bytes) (f : Faults) :
      Steps s n (.createObject object f) { n with
        store := (n.store.update f.db (·.createObject (s.hash object) object)).1 }
  /-- the first event is dropped, or waits again -/
  | requeue (fail : Bool) (pending : List Event) (h : ∀ e ∈ pending, e ∈ n.pending) :
      Steps s n (.dispatch fail) { n with pending := pending }
  | give (e : Event) (rest : List Event) (i : Nat) (m : Machine) (hpending : n.pending = e :: rest)
      (hi : n.states e.txID = some i) (hm : n.machines i = some m) :
      Steps s n (.dispatch false) { n with
        pending := rest
        machines := n.machines.set i { m with events := m.events ++ [e] } }
  | machine (i : Nat) (f : Faults) (m m' : Machine) (store : Store) (act : Option Act)
      (hm : n.machines i = some m) (h : m.Steps s f n.store store m' act) :
      Steps s n (.step i f) (n.after i m store m' act)
  | restart : Steps s n .restart { n with
      machines := .empty
      states := .empty
      pending := [] }

section Steps
variable {s : Service} {n n' : Node} {input : Input}

theorem Node.getOrCreate_cases (n : Node) (detail : DetailTx) (initial : State) :
    n.getOrCreate detail initial = n ∨
      n.getOrCreate detail initial = n.add detail initial ∧ n.states detail.id = none := by
  unfold Node.getOrCreate
  split
  · exact .inl rfl
  next h => exact .inr ⟨rfl, by simpa using h⟩

theorem Node.step_cases (h : n.step s input = some n') : n.Steps s input n' := by
  cases input with
  | addTransaction tx evidences f =>
    have h : n.addTransaction s tx evidences f = some n' := h
    obtain ⟨valid, _, h⟩ := Option.bind_eq_some_iff.mp h
    have hcreates : (Input.addTransaction tx evidences f).creates s =
        some (detailOf (txIDOf s.hash tx) tx evidences, .waitingForConsensus1) := rfl
    have harrive := fun proposals => Steps.arrive (s := s) (n := n)
      (.addTransaction tx evidences f) _ proposals
      (.inr ⟨_, _, hcreates, rfl, .inr ⟨tx, evidences, f, rfl⟩⟩)
    simp only [Input.event, Input.msg, Option.toList_none, append_nil, nil_append]
      at harrive
    split at h
    · cases h
      exact .same _
    split at h
    · cases h
      exact harrive [] (by simp)
    · cases h
      exact harrive [_] (by simp)
  | deliver data =>
    cases h
    unfold Node.deliver
    by_cases hop : data.op = .consensus1
    · have hcreates : (Input.deliver data).creates s =
          some (detailOf data.txID data.tx data.evidences, .waitingForConsensus1) := by
        simp [Input.creates, hop]
      simp only [hop, if_true]
      rcases n.getOrCreate_cases (detailOf data.txID data.tx data.evidences)
        .waitingForConsensus1 with heq | ⟨heq, hnone⟩
      · rw [heq]
        exact .arrive (.deliver data) n [] (.inl rfl) (by simp)
      · rw [heq]
        exact .arrive (.deliver data) _ [] (.inr ⟨_, _, hcreates, rfl, .inl hnone⟩) (by simp)
    · simp only [hop, if_false]
      exact .arrive (.deliver data) n [] (.inl rfl) (by simp)
  | message msg =>
    cases h
    unfold Node.message
    by_cases hop : msg.op = .commit
    · have hcreates : (Input.message msg).creates s =
          some (detailOf msg.txID msg.tx msg.evidences, .waitingForCommit) := by
        simp [Input.creates, hop]
      simp only [hop, if_true]
      rcases Node.getOrCreate_cases { n with received := msg :: n.received }
        (detailOf msg.txID msg.tx msg.evidences) .waitingForCommit with heq | ⟨heq, hnone⟩
      · rw [heq]
        exact .arrive (.message msg) n [] (.inl rfl) (by simp)
      rw [heq]
      exact .arrive (.message msg)
        (n.add (detailOf msg.txID msg.tx msg.evidences) .waitingForCommit) []
        (.inr ⟨_, _, hcreates, rfl, .inl hnone⟩) (by simp)
    · simp only [hop, if_false]
      exact .arrive (.message msg) n [] (.inl rfl) (by simp)
  | createObject object f =>
    have h : (if object = [] then some n else some { n with
      store := (n.store.update f.db (·.createObject (s.hash object) object)).1 }) = some n' := h
    split at h
    · cases h
      exact .same _
    · cases h
      exact .object object f
  | dispatch fail =>
    have h : n.dispatch fail = some n' := h
    unfold Node.dispatch at h
    split at h
    · cases h
    next e rest hpending =>
      cases fail with
      | true =>
        cases h
        refine .requeue true rest ?_
        intro x hx
        exact hpending ▸ mem_cons_of_mem e hx
      | false =>
        simp only [Bool.false_eq_true, if_false] at h
        split at h
        · cases h
          refine .requeue false (rest ++ [e]) ?_
          intro x hx
          rw [hpending]
          rcases mem_append.mp hx with hx | hx
          · exact mem_cons_of_mem e hx
          · exact mem_singleton.mp hx ▸ mem_cons_self
        next i hi =>
          split at h
          · cases h
          next m hm =>
            cases h
            exact .give e rest i m hpending hi hm
  | step i f =>
    have h : n.stepMachine s i f = some n' := h
    unfold Node.stepMachine at h
    split at h
    · cases h
    next m hm =>
      obtain ⟨⟨store, m', act⟩, hstep, h⟩ := Option.bind_eq_some_iff.mp h
      cases h
      exact .machine i f m m' store act hm (Machine.step_cases hstep)
  | restart =>
    cases h
    exact .restart

/-- **What a step does to the machines**: leaves one as it is, creates one, gives it an event, or
lets it step. -/
theorem Node.Steps.machines (h : n.Steps s input n') {i : Nat} {m' : Machine}
    (hm : n'.machines i = some m') :
    n.machines i = some m' ∨
      (∃ detail initial, input.creates s = some (detail, initial) ∧ i = n.next ∧
        m' = .new detail initial) ∨
      (∃ m e, n.machines i = some m ∧ e ∈ n.pending ∧ m' = { m with events := m.events ++ [e] }) ∨
      (∃ m f act, input = .step i f ∧ n.machines i = some m ∧
        m.Steps s f n.store n'.store m' act) := by
  cases h with
  | same | object | requeue => exact .inl hm
  | arrive input n1 proposals h1 =>
    rcases h1 with h1 | ⟨detail, initial, hc, h1, _⟩
    · exact .inl (h1 ▸ hm)
    have hm : n.machines.set n.next (.new detail initial) i = some m' := by
      rw [h1] at hm
      exact hm
    rcases PMap.of_set hm with ⟨hi, hm⟩ | ⟨_, hm⟩
    · exact .inr (.inl ⟨detail, initial, hc, hi, hm.symm⟩)
    · exact .inl hm
  | give e rest j m hpending _ hmj =>
    rcases PMap.of_set hm with ⟨hi, hm⟩ | ⟨_, hm⟩
    · exact .inr (.inr (.inl ⟨m, e, hi ▸ hmj, hpending ▸ mem_cons_self, hm.symm⟩))
    · exact .inl hm
  | machine j f m m1 store act hmj h =>
    rcases PMap.of_set hm with ⟨hi, hm⟩ | ⟨_, hm⟩
    · rw [← hm, hi]
      exact .inr (.inr (.inr ⟨m, f, act, rfl, hmj, h⟩))
    · exact .inl hm
  | restart => cases hm

/-- The machines are numbered from below. -/
def Node.Numbered (n : Node) : Prop := ∀ i m, n.machines i = some m → i < n.next

theorem Node.Steps.numbered (h : n.Steps s input n') (hn : n.Numbered) : n'.Numbered := by
  have hset : ∀ i m m1, n.machines i = some m → ∀ j m', n.machines.set i m1 j = some m' →
      j < n.next := by
    intro i m m1 hm j m' hm'
    by_cases hji : j = i
    · exact hji ▸ hn i m hm
    · rw [PMap.set_ne _ _ hji] at hm'
      exact hn j m' hm'
  cases h with
  | arrive input n1 proposals h1 =>
    rcases h1 with h1 | ⟨detail, initial, _, h1, _⟩
    · exact h1 ▸ hn
    subst h1
    intro i m' hm'
    have hm' : n.machines.set n.next (.new detail initial) i = some m' := hm'
    show i < n.next + 1
    by_cases hi : i = n.next
    · omega
    · rw [PMap.set_ne _ _ hi] at hm'
      exact Nat.lt_succ_of_lt (hn i m' hm')
  | give e rest i m _ _ hm => exact hset i m _ hm
  | machine i f m m' store act hm => exact hset i m m' hm
  | restart => exact fun i m hm => nomatch hm
  | _ => exact hn

theorem Node.Steps.pending (h : n.Steps s input n') {e : Event} (he : e ∈ n'.pending) :
    e ∈ n.pending ∨ input.event = some e := by
  cases h with
  | arrive =>
    rcases mem_append.mp he with he | he
    · exact .inl he
    · exact .inr (Option.mem_toList.mp he)
  | requeue fail pending h => exact .inl (h e he)
  | give x rest i m hpending => exact .inl (hpending ▸ mem_cons_of_mem x he)
  | restart => cases he
  | _ => exact .inl he

theorem Node.Steps.received (h : n.Steps s input n') :
    n'.received = n.received ∨ n'.received = input.msg.toList ++ n.received := by
  cases h with
  | arrive => exact .inr rfl
  | _ => exact .inl rfl

def Node.Did (n : Node) (id : Bytes) (P : Act → Prop) : Prop :=
  ∃ r ∈ n.history, r.detail.id = id ∧ P r.act

theorem Node.did_iff {id : Bytes} {P : Act → Prop} {i : Nat} {d : DetailTx} {act : Option Act}
    (h : n'.history = (act.toList.map fun a => ⟨i, d, a⟩) ++ n.history) :
    n'.Did id P ↔ (d.id = id ∧ ∃ a, act = some a ∧ P a) ∨ n.Did id P := by
  unfold Node.Did
  rw [h]
  constructor
  · intro hdid
    obtain ⟨r, hr, hid, hP⟩ := hdid
    rcases mem_append.mp hr with hr | hr
    · obtain ⟨a, ha, heq⟩ := mem_map.mp hr
      subst heq
      exact .inl ⟨hid, a, Option.mem_toList.mp ha, hP⟩
    · exact .inr ⟨r, hr, hid, hP⟩
  intro hdid
  rcases hdid with ⟨hid, a, ha, hP⟩ | ⟨r, hr, hid, hP⟩
  · subst ha
    exact ⟨_, mem_append_left _ mem_cons_self, hid, hP⟩
  · exact ⟨r, mem_append_right _ hr, hid, hP⟩

/-- **What the world does to a node**: it adds records of a start or of a proposal; an object keeps
its status; a machine was there, up to its queue of events, or is new. -/
structure Node.Around (s : Service) (n : Node) (input : Input) (n' : Node) : Prop where
  history : ∃ rs, n'.history = rs ++ n.history ∧
    ∀ r ∈ rs, (∃ data, r.act = .propose data) ∨ ∃ initial, r.act = .start initial
  statuses : ∀ o status, n.store.statuses o = some status → n'.store.statuses o = some status
  machines : ∀ i m', n'.machines i = some m' →
    (∃ m events, n.machines i = some m ∧ m' = { m with events := events }) ∨
      ∃ detail initial, n.creates s input = some (detail, initial) ∧ i = n.next ∧
        m' = .new detail initial ∧ ⟨i, detail, .start initial⟩ ∈ n'.history

theorem Node.around_arrive {n1 : Node} {proposals : List Record}
    (h1 : n1 = n ∨ ∃ detail initial, input.creates s = some (detail, initial) ∧
      n1 = n.add detail initial ∧
      (n.states detail.id = none ∨ ∃ tx evidences f, input = .addTransaction tx evidences f))
    (hproposals : ∀ r ∈ proposals, ∃ data, r.act = .propose data) (pending : List Event)
    (received : List SBACMessage) :
    n.Around s input { n1 with
      pending := pending
      received := received
      history := proposals ++ n1.history } := by
  rcases h1 with h1 | ⟨detail, initial, hc, h1, hnew⟩
  · subst h1
    exact ⟨⟨proposals, rfl, fun r hr => .inl (hproposals r hr)⟩, fun _ _ ho => ho,
      fun i m' hm => .inl ⟨m', m'.events, hm, rfl⟩⟩
  subst h1
  refine ⟨⟨proposals ++ [⟨n.next, detail, .start initial⟩], ?_, ?_⟩, fun _ _ ho => ho, ?_⟩
  · rw [append_assoc]
    rfl
  · exact forall_mem_append.mpr ⟨fun r hr => .inl (hproposals r hr),
      forall_mem_singleton.mpr (.inr ⟨initial, rfl⟩)⟩
  intro i m' hm
  rcases PMap.of_set hm with ⟨hi, hm⟩ | ⟨_, hm⟩
  · refine .inr ⟨detail, initial, Node.creates_iff.mpr ⟨hc, hnew⟩, hi, hm.symm, ?_⟩
    rw [hi]
    exact mem_append_right _ mem_cons_self
  · exact .inl ⟨m', m'.events, hm, rfl⟩

/-- **A step is one of the world or one of a machine.** -/
theorem Node.Steps.around_or_machine (h : n.Steps s input n') : n.Around s input n' ∨
      ∃ i f m m' store act, input = .step i f ∧ n.machines i = some m ∧
        m.Steps s f n.store store m' act ∧ n' = n.after i m store m' act := by
  cases h with
  | arrive input n1 proposals h1 hproposals =>
    exact .inl (Node.around_arrive h1 hproposals _ _)
  | object object f =>
    refine .inl ⟨⟨[], rfl, by simp⟩, ?_, fun i m' hm => .inl ⟨m', m'.events, hm, rfl⟩⟩
    intro o status ho
    rcases n.store.update_createObject f.db (s.hash object) object with heq | hcreated
    · rw [heq]
      exact ho
    · exact hcreated.status ho
  | give e rest j m _ _ hmj =>
    refine .inl ⟨⟨[], rfl, by simp⟩, fun _ _ ho => ho, ?_⟩
    intro i m' hm
    rcases PMap.of_set hm with ⟨hi, hm⟩ | ⟨_, hm⟩
    · exact .inl ⟨m, m.events ++ [e], hi ▸ hmj, hm.symm⟩
    · exact .inl ⟨m', m'.events, hm, rfl⟩
  | machine i f m m' store act hm h => exact .inr ⟨i, f, m, m', store, act, rfl, hm, h, rfl⟩
  | restart =>
    exact .inl ⟨⟨[], rfl, by simp⟩, fun _ _ ho => ho, fun i m' hm => absurd hm (by simp)⟩
  | _ =>
    exact .inl ⟨⟨[], rfl, by simp⟩, fun _ _ ho => ho, fun i m' hm => .inl ⟨m', m'.events, hm, rfl⟩⟩

theorem Node.Around.did_iff (h : n.Around s input n') {id : Bytes} {P : Act → Prop}
    (hstart : ∀ initial, ¬ P (.start initial)) (hpropose : ∀ data, ¬ P (.propose data)) :
    n'.Did id P ↔ n.Did id P := by
  obtain ⟨rs, hhist, hrs⟩ := h.history
  unfold Node.Did
  rw [hhist]
  constructor
  · rintro ⟨r, hr, hid, hP⟩
    rcases mem_append.mp hr with hr | hr
    · rcases hrs r hr with ⟨data, hact⟩ | ⟨initial, hact⟩
      · exact absurd (hact ▸ hP) (hpropose data)
      · exact absurd (hact ▸ hP) (hstart initial)
    · exact ⟨r, hr, hid, hP⟩
  · rintro ⟨r, hr, hid, hP⟩
    exact ⟨r, mem_append_right _ hr, hid, hP⟩

theorem Node.Steps.mem_history (h : n.Steps s input n') {r : Record} (hr : r ∈ n.history) :
    r ∈ n'.history := by
  rcases h.around_or_machine with ha | ⟨_, _, _, _, _, _, _, _, _, heq⟩
  · obtain ⟨rs, hhist, _⟩ := ha.history
    rw [hhist]
    exact mem_append_right _ hr
  · rw [heq]
    exact mem_append_right _ hr

end Steps

/-! ## §4. Two shards of one node. -/

/-- The service of node 1. Object `[n]` belongs to shard `n`. Signatures of node 1 are valid; those
of node 2 are if it is `signing`. -/
def pairService (signing : Bool) : Service where
  top := ⟨2, 1⟩
  nodeID := 1
  versionHash := fun key => (key.headD 1).toNat - 1
  hash := fun data => data
  marshal := fun _ => []
  sign := fun _ => [1]
  verify := fun node _ _ => some (node = 1 || signing)

def pairTx : Transaction := ⟨[.mk [] [] [[1], [2]] [] [] [] [] [] [] []]⟩

/-- A client sends a transaction, the shard agrees on it, and its machine steps. -/
def agreedInputs (i : Nat) (tx : Transaction) (steps : Nat) : List Input :=
  [.addTransaction tx (PMap.empty.set 1 [1]) ⟨false, false⟩,
    .deliver ⟨txIDOf (fun data => data) tx, tx, PMap.empty.set 1 [1], .consensus1, 1⟩,
    .dispatch false] ++ List.replicate steps (.step i ⟨false, false⟩)

end Chainspace.Sbac
