/-
  Chainspace.Sbac.Scheduler — which machines a node keeps, and for which transactions
  (`sbac/state_machine_scheduler.go` and its three callers in `sbac/sbac.go`).

  `AddTransaction` computes the identifier of its transaction and replaces the entry under it.
  `checkEvent` and `handleSBAC` take the identifier from their message and keep an entry that is
  there; a new machine of `handleSBAC` starts in `StateWaitingForCommit`. §2: entries are filed
  under the identifiers of their transactions as long as the messages that create them say the
  truth. §3: a transaction has one machine, from the right state, as long as nobody adds it again
  and no commit of other shards is the first thing heard of it.
-/
import Chainspace.Sbac.Node

namespace Chainspace.Sbac

open Chainspace.Lib List

/-! ## §1. What becomes of a machine. -/

/-- Nothing a machine has recorded is lost: decisions and answers stay, and an event leaves the
queue only when it is processed. -/
structure Machine.Follows (s : Service) (m m' : Machine) : Prop where
  detail : m'.detail = m.detail
  consensus : ∀ op, m.consensus op ≠ .waiting → m'.consensus op = m.consensus op
  decisions : ∀ op, ∀ node ∈ (m.sbac op).decisions, node ∈ (m'.sbac op).decisions
  events : (∃ new, m'.events = m.events ++ new) ∨
    ∃ e m1, m.events = e :: m'.events ∧
      Machine.processEvent s { m with events := m'.events } e = some m1 ∧
      m'.consensus = m1.consensus ∧ m'.sbac = m1.sbac

section Machines
variable {s : Service} {f : Faults} {store store' : Store} {m m' : Machine} {act : Option Act}

theorem Machine.Follows.refl (m : Machine) : m.Follows s m :=
  ⟨rfl, fun _ _ => rfl, fun _ _ h => h, .inl ⟨[], (append_nil _).symm⟩⟩

theorem StateConsensus.processEvent_decided {c c' : StateConsensus} {data : ConsensusTransaction}
    (h : c.processEvent s data = some c') (hc : c ≠ .waiting) : c' = c := by
  unfold StateConsensus.processEvent at h
  rw [if_pos hc] at h
  injection h with h
  exact h.symm

theorem SBACStateMachine.processEvent_mem {tx : Transaction} {c c' : SBACStateMachine}
    {msg : SBACMessage} (h : c.processEvent s tx msg = some c') {node : Nat}
    (hn : node ∈ c.decisions) : node ∈ c'.decisions := by
  unfold SBACStateMachine.processEvent at h
  split at h
  · cases h
    exact hn
  obtain ⟨state, _, h⟩ := Option.bind_eq_some_iff.mp h
  cases h
  exact (AList.mem_insert _).mpr (.inr hn)

theorem Machine.Follows.of_eq (hd : m'.detail = m.detail) (hc : m'.consensus = m.consensus)
    (hs : m'.sbac = m.sbac) (he : m'.events = m.events) : m.Follows s m' :=
  ⟨hd, fun op _ => by rw [hc], fun op node hn => by rw [hs]; exact hn,
    .inl ⟨[], by rw [he, append_nil]⟩⟩

theorem Machine.Follows.consumed {e : Event} {rest : List Event} {m1 : Machine} {pc : Pc}
    (hevents : m.events = e :: rest)
    (h : Machine.processEvent s { m with events := rest } e = some m1) :
    m.Follows s { m1 with pc := pc } := by
  have hqueue : m1.events = rest := (Machine.processEvent_same h).2.2.2
  refine ⟨(Machine.processEvent_same h).1, ?_, ?_, .inr ⟨e, m1, ?_, ?_, rfl, rfl⟩⟩
  · intro op hop
    rcases Machine.processEvent_cases h with hm1 | ⟨data, c, _, _, hc, hm1⟩ | ⟨_, _, _, _, _, hm1⟩
    · rw [hm1]
    · rw [hm1]
      show (if op = data.op then c else m.consensus op) = m.consensus op
      split
      next heq =>
        subst heq
        exact StateConsensus.processEvent_decided hc hop
      · rfl
    · rw [hm1]
  · intro op node hn
    rcases Machine.processEvent_cases h with hm1 | ⟨_, _, _, _, _, hm1⟩ | ⟨msg, c, _, _, hc, hm1⟩
    · rw [hm1]
      exact hn
    · rw [hm1]
      exact hn
    rw [hm1]
    show node ∈ (if op = msg.op then c else m.sbac op).decisions
    split
    next heq =>
      subst heq
      exact SBACStateMachine.processEvent_mem hc hn
    · exact hn
  · show m.events = e :: m1.events
    rw [hqueue, hevents]
  · show Machine.processEvent s { m with events := m1.events } e = some m1
    rw [hqueue]
    exact h

theorem Machine.Steps.follows (h : m.Steps s f store store' m' act) : m.Follows s m' := by
  rcases h.same with ⟨_, e, rest, m1, pc, hevents, h, heq⟩ | heq
  · rw [heq]
    exact .consumed hevents h
  · rw [heq]
    exact .of_eq rfl rfl rfl rfl

theorem Machine.Steps.not_start (h : m.Steps s f store store' m' act) (initial : State) :
    act ≠ some (.start initial) := by
  intro hact
  have hcalled : ∀ {t r}, Called s f m.detail store t r → r.act ≠ some (.start initial) := by
    intro t r hcall hact
    cases hcall with
    | triggered t next act ha =>
      obtain ⟨data, hdata⟩ := ha _ hact
      cases hdata
    | _ => cases hact
  cases h with
  | unlock =>
    rcases unlockInputs_cases s f m.detail store with ⟨st, _, heq⟩ | heq
    all_goals
      rw [heq] at hact
      cases hact
  | failed target t | applied target next t =>
    exact hcalled (callTransition_called s f m.detail store t) hact
  | _ => cases hact

end Machines

section Entries
variable {s : Service} {n n' : Node} {input : Input}

theorem Node.Steps.follows (h : n.Steps s input n') (hn : n.Numbered) (hr : input ≠ .restart)
    {i : Nat} {m : Machine} (hm : n.machines i = some m) :
    ∃ m', n'.machines i = some m' ∧ m.Follows s m' := by
  have hset : ∀ j m1 m2, n.machines j = some m1 → m1.Follows s m2 →
      ∃ m', n.machines.set j m2 i = some m' ∧ m.Follows s m' := by
    intro j m1 m2 hm1 hfollows
    by_cases hij : i = j
    · subst hij
      rw [hm] at hm1
      cases hm1
      exact ⟨m2, PMap.set_self _ _ _, hfollows⟩
    · exact ⟨m, by rw [PMap.set_ne _ _ hij]; exact hm, .refl m⟩
  cases h with
  | arrive input n1 proposals h1 =>
    rcases h1 with h1 | ⟨detail, initial, _, h1, _⟩
    · exact ⟨m, h1 ▸ hm, .refl m⟩
    have hne : i ≠ n.next := Nat.ne_of_lt (hn i m hm)
    refine ⟨m, ?_, .refl m⟩
    rw [h1]
    show n.machines.set n.next _ i = some m
    rw [PMap.set_ne _ _ hne]
    exact hm
  | give e rest j m1 _ _ hm1 =>
    exact hset j m1 _ hm1 ⟨rfl, fun _ _ => rfl, fun _ _ h => h, .inl ⟨[e], rfl⟩⟩
  | machine j f m1 m2 store act hm1 h => exact hset j m1 m2 hm1 h.follows
  | restart => exact absurd rfl hr
  | _ => exact ⟨m, hm, .refl m⟩

/-- What a step does to the scheduler: nothing, a new entry, or a restart. -/
theorem Node.Steps.states (h : n.Steps s input n') :
    n'.states = n.states ∨ input = .restart ∧ n'.states = .empty ∨
      ∃ detail initial, n.creates s input = some (detail, initial) ∧
        n'.states = n.states.set detail.id n.next ∧
        n'.machines = n.machines.set n.next (.new detail initial) := by
  cases h with
  | arrive input n1 proposals h1 =>
    rcases h1 with h1 | ⟨detail, initial, hc, h1, hnew⟩
    · exact .inl (by rw [h1])
    refine .inr (.inr ⟨detail, initial, Node.creates_iff.mpr ⟨hc, hnew⟩, ?_, ?_⟩)
    all_goals
      rw [h1]
      rfl
  | restart => exact .inr (.inl ⟨rfl, rfl⟩)
  | _ => exact .inl rfl

theorem numbered_new (store : Store) : (Node.new store).Numbered :=
  fun i m hm => absurd hm (by simp [Node.new])

end Entries

/-! ## §2. The identifier of an entry. -/

/-- **Every entry is filed under the identifier of its transaction.** -/
def Node.FiledByID (s : Service) (n : Node) : Prop :=
  ∀ id i, n.states id = some i → ∃ m, n.machines i = some m ∧ txIDOf s.hash m.detail.tx = id

/-- A request that creates a machine has the right identifier. -/
def TrueID (s : Service) (n : Node) (input : Input) : Prop :=
  ∀ detail initial, n.creates s input = some (detail, initial) →
    txIDOf s.hash detail.tx = detail.id

section TrueID
variable {s : Service} {store : Store} {n n' : Node} {input : Input}

theorem Node.FiledByID.step (hfiled : n.FiledByID s) (hn : n.Numbered) (hok : TrueID s n input)
    (h : n.Steps s input n') : n'.FiledByID s := by
  intro id i hi
  rcases h.states with hst | ⟨_, hst⟩ | ⟨detail, initial, hc, hst, hmachines⟩
  · rw [hst] at hi
    obtain ⟨m, hm, hid⟩ := hfiled id i hi
    by_cases hr : input = .restart
    · -- A restart clears the entries, so there was none.
      subst hr
      cases h with
      | same => exact ⟨m, hm, hid⟩
      | arrive _ n1 proposals h1 =>
        rcases h1 with h1 | ⟨_, _, hc, _⟩
        · exact ⟨m, h1 ▸ hm, hid⟩
        · exact absurd hc (by simp [Input.creates])
      | restart => exact absurd (hst ▸ hi) (by simp)
    · obtain ⟨m', hm', hf⟩ := h.follows hn hr hm
      exact ⟨m', hm', by rw [hf.detail]; exact hid⟩
  · rw [hst] at hi
    cases hi
  rw [hst, PMap.set_apply] at hi
  split at hi
  next heq =>
    cases hi
    refine ⟨.new detail initial, by rw [hmachines, PMap.set_self], ?_⟩
    rw [heq]
    exact hok detail initial hc
  obtain ⟨m, hm, hid⟩ := hfiled id i hi
  have hne : i ≠ n.next := Nat.ne_of_lt (hn i m hm)
  exact ⟨m, by rw [hmachines, PMap.set_ne _ _ hne]; exact hm, hid⟩

theorem Node.created_entry {detail : DetailTx} {initial : State} (h : n.step s input = some n')
    (hc : n.creates s input = some (detail, initial))
    (hadd : ∀ tx evidences f, input ≠ .addTransaction tx evidences f) :
    n'.states detail.id = some n.next ∧ n'.machines n.next = some (.new detail initial) ∧
      ∃ later, n'.history = later ++ ⟨n.next, detail, .start initial⟩ :: n.history := by
  have hgen : ∀ n1 : Node, n1.next = n.next → n1.states = n.states → n1.history = n.history →
      n.states detail.id = none →
      (n1.getOrCreate detail initial).states detail.id = some n.next ∧
        (n1.getOrCreate detail initial).machines n.next = some (.new detail initial) ∧
        ∃ later, (n1.getOrCreate detail initial).history =
          later ++ ⟨n.next, detail, .start initial⟩ :: n.history := by
    intro n1 hnext hstates hhist hnone
    unfold Node.getOrCreate
    rw [hstates, hnone]
    unfold Node.add
    rw [hnext, hhist]
    exact ⟨PMap.set_self _ _ _, PMap.set_self _ _ _, [], rfl⟩
  obtain ⟨hc, hnew⟩ := Node.creates_iff.mp hc
  have hnone : n.states detail.id = none :=
    hnew.resolve_right fun ⟨tx, evidences, f, heq⟩ => hadd tx evidences f heq
  rcases Input.creates_cases hc with
    ⟨tx, evidences, f, hinput, _⟩ | ⟨data, hinput, hop, hd, hi⟩ | ⟨msg, hinput, hop, hd, hi⟩
  · exact absurd hinput (hadd tx evidences f)
  · subst hinput
    cases h
    unfold Node.deliver
    simp only [hop, if_true]
    rw [← hd, ← hi]
    exact hgen n rfl rfl rfl hnone
  subst hinput
  cases h
  unfold Node.message
  simp only [hop, if_true]
  rw [← hd, ← hi]
  exact hgen { n with received := msg :: n.received } rfl rfl rfl hnone

theorem NodeRun.numbered {ok : Node → Input → Prop} (h : NodeRun s ok store n) : n.Numbered := by
  induction h with
  | start => exact numbered_new store
  | step _ _ hstep ih => exact (Node.step_cases hstep).numbered ih

theorem NodeRun.filedByID (h : NodeRun s (TrueID s) store n) : n.FiledByID s := by
  induction h with
  | start => exact fun id i hi => absurd hi (by simp [Node.new])
  | step hrun hok hstep ih => exact ih.step hrun.numbered hok (Node.step_cases hstep)

/-- **Entries are filed under the identifiers of their transactions** in every run in which the
requests that create machines name them rightly; the first other request breaks it. -/
theorem filed_by_transaction_id (s : Service) (store : Store) :
    (∀ n, NodeRun s (TrueID s) store n → n.FiledByID s) ∧
      ∀ n n' input, NodeRun s (TrueID s) store n → n.step s input = some n' →
        (n'.FiledByID s ↔ TrueID s n input) := by
  refine ⟨fun n h => h.filedByID, ?_⟩
  intro n n' input hrun hstep
  constructor
  · intro hfiled detail initial hc
    by_cases hadd : ∃ tx evidences f, input = .addTransaction tx evidences f
    · -- `AddTransaction` computes the identifier itself.
      obtain ⟨tx, evidences, f, hadd⟩ := hadd
      subst hadd
      injection hc with hc
      injection hc with hd _
      rw [← hd]
      rfl
    have hadd : ∀ tx evidences f, input ≠ .addTransaction tx evidences f :=
      fun tx evidences f heq => hadd ⟨tx, evidences, f, heq⟩
    obtain ⟨hi, hm, _⟩ := Node.created_entry hstep hc hadd
    obtain ⟨m, hm', hid⟩ := hfiled detail.id n.next hi
    rw [hm] at hm'
    injection hm' with hm'
    rw [← hm'] at hid
    exact hid
  · intro hok
    exact hrun.filedByID.step hrun.numbered hok (Node.step_cases hstep)

/-- **Another transaction under the identifier of this one**: the shard agrees on a transaction
without traces under the identifier of `pairTx`. -/
theorem foreign_transaction_filed : ∃ n, NodeRun (pairService true) (fun _ _ => True) .empty n ∧
      ∃ i m, n.states (txIDOf (fun data => data) pairTx) = some i ∧ n.machines i = some m ∧
        txIDOf (pairService true).hash m.detail.tx ≠ txIDOf (fun data => data) pairTx := by
  have hstep : Node.step (pairService true) (.new .empty)
      (.deliver ⟨txIDOf (fun data => data) pairTx, ⟨[]⟩, PMap.empty.set 1 [1], .consensus1, 1⟩) =
      some _ := rfl
  refine ⟨_, .step .start trivial hstep, 0, _, rfl, rfl, ?_⟩
  decide

end TrueID

/-! ## §3. One machine for a transaction. -/

def Record.starts (id : Bytes) (r : Record) : Bool :=
  decide (r.detail.id = id) &&
    match r.act with
    | .start _ => true
    | _ => false

def Node.startsOf (n : Node) (id : Bytes) : List Record := n.history.filter (Record.starts id)

/-- **A transaction has had at most one machine, and from the right state.** -/
structure OneMachine (id : Bytes) (n : Node) : Prop where
  once : (n.startsOf id).length ≤ 1
  initial : ∀ r ∈ n.startsOf id, r.act = .start .waitingForConsensus1

/-- **The entry of a transaction is not replaced**, and nothing recorded is lost. -/
def KeepsMachine (s : Service) (id : Bytes) (n n' : Node) : Prop :=
  ∀ i m, n.states id = some i → n.machines i = some m →
    n'.states id = some i ∧ ∃ m', n'.machines i = some m' ∧ m.Follows s m'

/-- A client adds the transaction only when it has no entry, and other shards announce its commit
only when it has one. -/
structure OneEntry (s : Service) (id : Bytes) (n : Node) (input : Input) : Prop where
  added : ∀ tx evidences f, input = .addTransaction tx evidences f → txIDOf s.hash tx = id →
    s.verifyEvidenceSignature (s.marshal tx) evidences = some true → n.states id = none
  announced : ∀ msg, input = .message msg → msg.op = .commit → msg.txID = id →
    (n.states id).isSome = true

/-- The entry of a transaction is that of the one machine it has had. -/
structure EntryInv (id : Bytes) (n : Node) : Prop where
  absent : n.states id = none → n.startsOf id = []
  present : ∀ i, n.states id = some i →
    ∃ d, n.startsOf id = [⟨i, d, .start .waitingForConsensus1⟩] ∧ (n.machines i).isSome = true

section OneMachine
variable {s : Service} {id : Bytes} {store : Store} {n n' : Node} {input : Input}

theorem EntryInv.oneMachine (h : EntryInv id n) : OneMachine id n := by
  cases hst : n.states id with
  | none =>
    have hnil := h.absent hst
    exact ⟨by rw [hnil]; simp, by rw [hnil]; simp⟩
  | some i =>
    obtain ⟨d, hone, _⟩ := h.present i hst
    refine ⟨by rw [hone]; simp, ?_⟩
    rw [hone]
    intro r hr
    rw [mem_singleton.mp hr]

theorem startsOf_append (rs : List Record) (h : n'.history = rs ++ n.history)
    (hrs : ∀ r ∈ rs, r.starts id = false) : n'.startsOf id = n.startsOf id := by
  unfold Node.startsOf
  rw [h, filter_append, filter_eq_nil_iff.mpr (fun r hr => by simp [hrs r hr])]
  rfl

theorem Record.starts_ne {r : Record} (h : r.detail.id ≠ id) : r.starts id = false := by
  unfold Record.starts
  simp [h]

theorem Record.starts_propose {r : Record} {data : ConsensusTransaction}
    (h : r.act = .propose data) : r.starts id = false := by
  unfold Record.starts
  rw [h]
  simp

/-- **What a step does to the entry of a transaction**: nothing, or it starts a machine. -/
theorem Node.Steps.entry (h : n.Steps s input n') (hr : input ≠ .restart) (id : Bytes) :
    (n'.startsOf id = n.startsOf id ∧ n'.states id = n.states id) ∨
      ∃ detail initial, n.creates s input = some (detail, initial) ∧ detail.id = id ∧
        n'.states id = some n.next ∧ n'.machines n.next = some (.new detail initial) ∧
        n'.startsOf id = ⟨n.next, detail, .start initial⟩ :: n.startsOf id := by
  cases h with
  | arrive input n1 proposals h1 hproposals =>
    have hquiet : ∀ r ∈ proposals, r.starts id = false := by
      intro r hr
      obtain ⟨data, hdata⟩ := hproposals r hr
      exact Record.starts_propose hdata
    rcases h1 with h1 | ⟨detail, initial, hc, h1, hnew⟩
    · subst h1
      exact .inl ⟨startsOf_append _ rfl hquiet, rfl⟩
    subst h1
    by_cases hid : detail.id = id
    · refine .inr ⟨detail, initial, Node.creates_iff.mpr ⟨hc, hnew⟩, hid, ?_,
        PMap.set_self _ _ _, ?_⟩
      · rw [← hid]
        exact PMap.set_self _ _ _
      show ((proposals ++ ⟨n.next, detail, .start initial⟩ :: n.history).filter _) = _
      have hstarts : Record.starts id ⟨n.next, detail, .start initial⟩ = true := by
        simp [Record.starts, hid]
      rw [filter_append, filter_eq_nil_iff.mpr
        (fun r hr => by simp [hquiet r hr]), nil_append, filter_cons,
        if_pos hstarts]
      rfl
    refine .inl ⟨startsOf_append (proposals ++ [⟨n.next, detail, .start initial⟩])
      ?_ ?_, PMap.set_ne _ _ (Ne.symm hid)⟩
    · show proposals ++ ⟨n.next, detail, .start initial⟩ :: n.history = _
      rw [append_assoc]
      rfl
    · exact forall_mem_append.mpr ⟨hquiet, forall_mem_singleton.mpr (Record.starts_ne hid)⟩
  | machine i f m m' store act _ h =>
    refine .inl ⟨startsOf_append _ rfl ?_, rfl⟩
    intro r hr
    obtain ⟨a, ha, heq⟩ := mem_map.mp hr
    have ha : act = some a := Option.mem_toList.mp ha
    subst heq
    unfold Record.starts
    cases a with
    | start initial => exact absurd ha (h.not_start initial)
    | _ => simp
  | restart => exact absurd rfl hr
  | _ => exact .inl ⟨rfl, rfl⟩

theorem OneEntry.first (hok : OneEntry s id n input) (hstep : n.step s input = some n')
    {detail : DetailTx} {initial : State} (hc : n.creates s input = some (detail, initial))
    (hid : detail.id = id)
    (hstarts : n'.startsOf id = ⟨n.next, detail, .start initial⟩ :: n.startsOf id) :
    n.states id = none ∧ initial = .waitingForConsensus1 := by
  obtain ⟨hc, hnew⟩ := Node.creates_iff.mp hc
  rcases Input.creates_cases hc with
    ⟨tx, evidences, f, hinput, hd, hi⟩ | ⟨data, hinput, hop, hd, hi⟩ | ⟨msg, hinput, hop, hd, hi⟩
  · subst hinput
    have hid : txIDOf s.hash tx = id := by
      rw [← hid, hd]
      rfl
    refine ⟨?_, hi⟩
    have hstep : n.addTransaction s tx evidences f = some n' := hstep
    obtain ⟨valid, hvalid, hstep⟩ := Option.bind_eq_some_iff.mp hstep
    cases valid with
    | true => exact hok.added tx evidences f rfl hid hvalid
    | false =>
      -- A refused request changes nothing.
      injection hstep with hstep
      rw [← hstep] at hstarts
      exact absurd (congrArg List.length hstarts) (by simp)
  · refine ⟨?_, hi⟩
    rw [← hid]
    exact hnew.resolve_right (by simp [hinput])
  have hnone : n.states id = none := by
    rw [← hid]
    exact hnew.resolve_right (by simp [hinput])
  have hid' : msg.txID = id := by
    rw [← hid, hd]
    rfl
  have hsome := hok.announced msg hinput hop hid'
  rw [hnone] at hsome
  cases hsome

theorem EntryInv.step (hinv : EntryInv id n) (hn : n.Numbered) (hr : input ≠ .restart)
    (hok : OneEntry s id n input) (hstep : n.step s input = some n') :
    EntryInv id n' ∧ KeepsMachine s id n n' := by
  have h := Node.step_cases hstep
  rcases h.entry hr id with ⟨hstarts, hst⟩ | ⟨detail, initial, hc, hid, hst, hm, hstarts⟩
  · refine ⟨⟨?_, ?_⟩, ?_⟩
    · intro hnone
      rw [hstarts]
      exact hinv.absent (hst ▸ hnone)
    · intro i hi
      rw [hst] at hi
      obtain ⟨d, hone, hsome⟩ := hinv.present i hi
      obtain ⟨m, hm⟩ := Option.isSome_iff_exists.mp hsome
      obtain ⟨m', hm', _⟩ := h.follows hn hr hm
      exact ⟨d, by rw [hstarts]; exact hone, by rw [hm']; rfl⟩
    · intro i m hi hm
      exact ⟨hst ▸ hi, h.follows hn hr hm⟩
  obtain ⟨hnone, hinitial⟩ := hok.first hstep hc hid hstarts
  refine ⟨⟨?_, ?_⟩, ?_⟩
  · intro hn'
    rw [hst] at hn'
    cases hn'
  · intro i hi
    rw [hst] at hi
    cases hi
    exact ⟨detail, by rw [hstarts, hinv.absent hnone, hinitial], by rw [hm]; rfl⟩
  intro i m hi
  rw [hnone] at hi
  cases hi

/-- The steps of the runs without restarts whose entries are created once. -/
def CreatedOnce (s : Service) (id : Bytes) (n : Node) (input : Input) : Prop :=
  input ≠ .restart ∧ OneEntry s id n input

theorem NodeRun.entryInv (h : NodeRun s (CreatedOnce s id) store n) : EntryInv id n := by
  induction h with
  | start => exact ⟨fun _ => rfl, fun i hi => absurd hi (by simp [Node.new])⟩
  | step hrun hok hstep ih => exact (ih.step hrun.numbered hok.1 hok.2 hstep).1

theorem EntryInv.not_again (hinv : EntryInv id n) {tx : Transaction} {evidences : Evidences}
    {f : Faults} (hstep : n.step s (.addTransaction tx evidences f) = some n')
    (hid : txIDOf s.hash tx = id)
    (hvalid : s.verifyEvidenceSignature (s.marshal tx) evidences = some true)
    (hone : OneMachine id n') : n.states id = none := by
  cases hst : n.states id with
  | none => rfl
  | some i =>
    exfalso
    obtain ⟨d, hold, _⟩ := hinv.present i hst
    have hstep : n.addTransaction s tx evidences f = some n' := hstep
    unfold Node.addTransaction at hstep
    rw [hvalid] at hstep
    have hlen : (n'.startsOf id).length = (n.startsOf id).length + 1 := by
      have hstart : Record.starts id ⟨n.next, Node.detailOf (txIDOf s.hash tx) tx evidences,
          .start .waitingForConsensus1⟩ = true := by
        simp [Record.starts, Node.detailOf, hid]
      have hpropose : ∀ d data, Record.starts id ⟨n.next, d, .propose data⟩ = false :=
        fun d data => Record.starts_propose rfl
      cases hf : f.marshal with
      | true =>
        simp only [hf, Option.bind_eq_bind, Option.bind_some, Bool.not_true,
          Bool.false_eq_true, if_false, if_true] at hstep
        injection hstep with hstep
        rw [← hstep]
        show (List.filter _ (_ :: n.history)).length = _
        rw [filter_cons, if_pos hstart]
        rfl
      | false =>
        simp only [hf, Option.bind_eq_bind, Option.bind_some, Bool.not_true,
          Bool.false_eq_true, if_false] at hstep
        injection hstep with hstep
        rw [← hstep]
        show (List.filter _ (_ :: _ :: n.history)).length = _
        rw [filter_cons, hpropose, filter_cons, if_pos hstart]
        rfl
    have honce := hone.once
    rw [hlen, hold] at honce
    simp at honce

/-- **A transaction has one machine, from the right state, which is not replaced**, in every run in
which nobody adds it again and no commit of other shards is the first thing heard of it; the first
request that does either breaks it. -/
theorem machine_created_once (s : Service) (id : Bytes) (store : Store) :
    (∀ n, NodeRun s (CreatedOnce s id) store n → OneMachine id n) ∧
      ∀ n n' input, NodeRun s (CreatedOnce s id) store n → input ≠ .restart →
        n.step s input = some n' →
        (OneMachine id n' ∧ KeepsMachine s id n n' ↔ OneEntry s id n input) := by
  refine ⟨fun n h => h.entryInv.oneMachine, ?_⟩
  intro n n' input hrun hr hstep
  constructor
  · rintro ⟨hone, _⟩
    constructor
    · intro tx evidences f hinput hid hvalid
      subst hinput
      exact hrun.entryInv.not_again hstep hid hvalid hone
    intro msg hinput hop hid
    subst hinput
    cases hst : n.states id with
    | some => rfl
    | none =>
      have hc : n.creates s (.message msg) =
          some (Node.detailOf msg.txID msg.tx msg.evidences, .waitingForCommit) := by
        refine Node.creates_iff.mpr ⟨by simp [Input.creates, hop], .inl ?_⟩
        rw [hid]
        exact hst
      obtain ⟨_, _, later, hhist⟩ := Node.created_entry hstep hc (by simp)
      have hmem : (⟨n.next, Node.detailOf msg.txID msg.tx msg.evidences,
          .start .waitingForCommit⟩ : Record) ∈ n'.startsOf id := by
        refine mem_filter.mpr ⟨?_, by simp [Record.starts, Node.detailOf, hid]⟩
        rw [hhist]
        exact mem_append_right _ mem_cons_self
      exact absurd (hone.initial _ hmem) (by simp)
  · intro hok
    obtain ⟨hinv, hkeeps⟩ := hrun.entryInv.step hrun.numbered hr hok hstep
    exact ⟨hinv.oneMachine, hkeeps⟩

end OneMachine

/-- What a node holds for `pairTx`: the number of its entry, and what its machine knows of the first
consensus. -/
def Node.pairView (n : Node) : Option (Nat × StateConsensus × State) := do
  let i ← n.states (txIDOf (fun data => data) pairTx)
  let m ← n.machines i
  some (i, m.consensus .consensus1, m.state)

/-- **A repeated request replaces the machine**: the request for `pairTx` is sent again after the
shard has agreed on it, and the agreement is lost. -/
theorem repeated_request_replaces :
    (pairService true).inputObjectsForShard pairTx = ([[1]], false) ∧
      ∃ n n', NodeRun (pairService true) (fun _ input => input ≠ .restart) .empty n ∧
        n.step (pairService true)
          (.addTransaction pairTx (PMap.empty.set 1 [1]) ⟨false, false⟩) = some n' ∧
        n.pairView = some (0, .accepted, .waitingForConsensus1) ∧
        n'.pairView = some (1, .waiting, .waitingForConsensus1) ∧
        ¬ OneMachine (txIDOf (fun data => data) pairTx) n' := by
  refine ⟨by decide, ?_⟩
  have hview : ((Node.new .empty).stepAll (pairService true) (agreedInputs 0 pairTx 1)).bind
      (fun n => (n.step (pairService true)
          (.addTransaction pairTx (PMap.empty.set 1 [1]) ⟨false, false⟩)).map fun n' =>
        (n.pairView, n'.pairView, (n'.startsOf (txIDOf (fun data => data) pairTx)).length)) =
      some (some (0, .accepted, .waitingForConsensus1),
        some (1, .waiting, .waitingForConsensus1), 2) := by decide +kernel
  obtain ⟨n, hn, hview⟩ := Option.bind_eq_some_iff.mp hview
  obtain ⟨n', hn', hview⟩ := Option.map_eq_some_iff.mp hview
  injection hview with hbefore hview
  injection hview with hafter hlen
  have hrun : NodeRun (pairService true) (fun _ input => input ≠ .restart) .empty n := by
    refine NodeRun.stepAll .start ?_ hn
    intro _ input hmem
    simp only [agreedInputs, List.replicate, cons_append, nil_append, mem_cons,
      not_mem_nil, or_false] at hmem
    rcases hmem with h | h | h | h <;> rw [h] <;> simp
  refine ⟨n, n', hrun, hn', hbefore, hafter, ?_⟩
  intro hone
  have honce := hone.once
  rw [hlen] at honce
  simp at honce

end Chainspace.Sbac
