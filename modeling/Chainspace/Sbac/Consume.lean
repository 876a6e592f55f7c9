/-
  Chainspace.Sbac.Consume — a machine consumes one event after the other
  (`consumeEvent` and `moveState` of `sbac/state_machine.go`).

  The small machines collect answers, and the main one goes as far as they allow. A machine that
  starts in `StateWaitingForConsensus1`, on a store that nobody else touches, always comes to wait
  again, and where is settled by the answers: an early one is on file when it is asked for, and a
  late one finds the machine waiting for it.
-/
import Chainspace.Sbac.Machine

namespace Chainspace.Sbac

open Chainspace.Lib

/-! ## §1. Consuming an event. -/

/-- A step of a machine that does not wait for an event, when nothing fails. -/
def Machine.tick (s : Service) (w : Store × Machine) : Store × Machine :=
  match w.2.pc with
  | .idle => w
  | _ => ((w.2.step s ⟨false, false⟩ w.1).map fun r => (r.1, r.2.1)).getD w

/-- `consumeEvent`: the machine takes the event, and goes on until it waits or has taken `k` steps.
-/
def Machine.consumeEvent (s : Service) (k : Nat) (w : Store × Machine) (e : Event) :
    Option (Store × Machine) :=
  (Machine.step s ⟨false, false⟩ w.1 { w.2 with events := [e] }).map fun r =>
    (Machine.tick s)^[k] (r.1, r.2.1)

def Machine.consumeEvents (s : Service) (k : Nat) (w : Store × Machine) (es : List Event) :
    Option (Store × Machine) :=
  es.foldlM (Machine.consumeEvent s k) w

section Tick
variable {s : Service} {f : Faults} {store store' : Store} {m m' : Machine} {act : Option Act}

theorem Machine.tick_idle (hpc : m.pc = .idle) : Machine.tick s (store, m) = (store, m) := by
  unfold Machine.tick
  rw [hpc]

theorem Machine.tick_of_step (hpc : m.pc ≠ .idle)
    (h : m.step s ⟨false, false⟩ store = some (store', m', act)) :
    Machine.tick s (store, m) = (store', m') := by
  unfold Machine.tick
  split
  next hidle => exact absurd hidle hpc
  show ((m.step s ⟨false, false⟩ store).map _).getD _ = _
  rw [h]
  rfl

theorem Machine.exists_step (hpc : m.pc ≠ .idle) :
    ∃ store' m' act, m.step s f store = some (store', m', act) := by
  unfold Machine.step
  split
  next h => exact absurd h hpc
  · exact ⟨_, _, _, rfl⟩
  · exact ⟨_, _, _, rfl⟩
  · split
    all_goals exact ⟨_, _, _, rfl⟩
  · split
    · exact ⟨_, _, _, rfl⟩
    · exact ⟨_, _, _, rfl⟩
    dsimp only
    split
    all_goals exact ⟨_, _, _, rfl⟩
  · exact ⟨_, _, _, rfl⟩

theorem Machine.tick_steps (hpc : m.pc ≠ .idle) :
    ∃ act, m.Steps s ⟨false, false⟩ store (Machine.tick s (store, m)).1
      (Machine.tick s (store, m)).2 act := by
  obtain ⟨store', m', act, hstep⟩ := Machine.exists_step hpc
  rw [Machine.tick_of_step hpc hstep]
  exact ⟨act, Machine.step_cases hstep⟩

end Tick

/-! ## §2. Answers. -/

@[ext] structure Answers where
  consensus : ConsensusOp → StateConsensus
  phases : SBACOp → StateSBAC

/-- More is known: what was decided stays so. -/
structure Answers.Extends (a b : Answers) : Prop where
  consensus : ∀ op, a.consensus op = .waiting ∨ b.consensus op = a.consensus op
  phases : ∀ op, a.phases op = .waiting ∨ b.phases op = a.phases op

namespace Answers

def next (a : Answers) (d : DetailTx) : State → Pc
  | .waitingForConsensus1 =>
    match a.consensus .consensus1 with
    | .waiting => .idle
    | .rejected => .applying .rejectPhase1Broadcasted
    | .accepted => .checking d.tx.traces
  | .waitingForConsensus2 =>
    match a.consensus .consensus2 with
    | .waiting => .idle
    | .rejected => .applying .rejectPhase2Broadcasted
    | .accepted => .applying .acceptPhase2Broadcasted
  | .waitingForPhase1 =>
    match a.phases .phase1 with
    | .waiting => .idle
    | .rejected => .applying .aborted
    | .accepted => .applying .consensus2Triggered
  | .waitingForPhase2 =>
    match a.phases .phase2 with
    | .waiting => .idle
    | .rejected => .applying .aborted
    | .accepted => .applying .objectsDeactivated
  | .waitingForCommit =>
    match a.phases .commit with
    | .waiting => .idle
    | .rejected => .applying .aborted
    | .accepted => .applying .consensusCommitTriggered
  | .waitingForConsensusCommit =>
    match a.consensus .consensusCommit with
    | .waiting => .idle
    | .rejected => .applying .aborted
    | .accepted => .applying .objectsCreated
  | _ => .idle

theorem stays_trans {α : Type} {x y z w : α} (h : x = w ∨ y = x) (h' : y = w ∨ z = y) :
    x = w ∨ z = x := by
  rcases h with hw | heq
  · exact .inl hw
  rcases h' with hw | heq'
  · exact .inl (heq ▸ hw)
  · exact .inr (heq'.trans heq)

theorem Extends.refl (a : Answers) : a.Extends a := ⟨fun _ => .inr rfl, fun _ => .inr rfl⟩

theorem Extends.trans {a b c : Answers} (h : a.Extends b) (h' : b.Extends c) : a.Extends c :=
  ⟨fun op => stays_trans (h.consensus op) (h'.consensus op),
    fun op => stays_trans (h.phases op) (h'.phases op)⟩

/-- With more answers the loop goes the same way, unless it was to wait. -/
theorem Extends.next {a b : Answers} (h : a.Extends b) (d : DetailTx) (st : State) :
    a.next d st = .idle ∨ b.next d st = a.next d st := by
  cases st with
  | waitingForConsensus1 =>
    rcases h.consensus .consensus1 with h | h
    all_goals simp [Answers.next, h]
  | waitingForConsensus2 =>
    rcases h.consensus .consensus2 with h | h
    all_goals simp [Answers.next, h]
  | waitingForConsensusCommit =>
    rcases h.consensus .consensusCommit with h | h
    all_goals simp [Answers.next, h]
  | waitingForPhase1 =>
    rcases h.phases .phase1 with h | h
    all_goals simp [Answers.next, h]
  | waitingForPhase2 =>
    rcases h.phases .phase2 with h | h
    all_goals simp [Answers.next, h]
  | waitingForCommit =>
    rcases h.phases .commit with h | h
    all_goals simp [Answers.next, h]
  | _ => exact .inl rfl

end Answers

namespace Machine

def answers (m : Machine) : Answers := ⟨m.consensus, fun op => (m.sbac op).state⟩

/-- The same machine with other answers, and nothing else on file. -/
def answered (m : Machine) (a : Answers) : Machine :=
  { m with
    consensus := a.consensus
    sbac := fun op => ⟨∅, a.phases op⟩
    events := [] }

section Answered
variable {s : Service} {f : Faults} {store : Store} {m : Machine} {a : Answers}

@[simp] theorem answered_pc (m : Machine) (a : Answers) : (m.answered a).pc = m.pc := rfl

@[simp] theorem answered_state (m : Machine) (a : Answers) : (m.answered a).state = m.state := rfl

@[simp] theorem answered_detail (m : Machine) (a : Answers) :
    (m.answered a).detail = m.detail := rfl

theorem moveTo_answered (m : Machine) (st : State) (a : Answers) :
    (m.answered a).moveTo st = (m.moveTo st).answered a := by
  by_cases hst : st = m.state
  · simp [moveTo, answered, hst]
  · by_cases ht : (transitionTable m.state st).isSome = true
    all_goals simp [moveTo, answered, hst, ht]

/-- **What a machine does next**, at the head of the loop of `moveState`, depends on the answers
only. -/
theorem move_eq (m : Machine) : m.move = { m with pc := m.answers.next m.detail m.state } := by
  cases hs : m.state with
  | waitingForConsensus1 =>
    cases hc : m.consensus .consensus1 with
    | waiting => simp [move, moveTo, hs, Answers.next, answers, hc]
    | rejected => simp [move, moveTo, hs, Answers.next, answers, hc, transitionTable]
    | accepted => simp [move, hs, Answers.next, answers, hc]
  | waitingForConsensus2 =>
    cases hc : m.consensus .consensus2
    all_goals simp [move, moveTo, onWaitingForConsensus, hs, Answers.next, answers, hc,
      transitionTable]
  | waitingForConsensusCommit =>
    cases hc : m.consensus .consensusCommit
    all_goals simp [move, moveTo, onWaitingForConsensus, hs, Answers.next, answers, hc,
      transitionTable]
  | waitingForPhase1 =>
    cases hc : (m.sbac .phase1).state
    all_goals simp [move, moveTo, onWaitingForPhase, hs, Answers.next, answers, hc, transitionTable]
  | waitingForPhase2 =>
    cases hc : (m.sbac .phase2).state
    all_goals simp [move, moveTo, onWaitingForPhase, hs, Answers.next, answers, hc, transitionTable]
  | waitingForCommit =>
    cases hc : (m.sbac .commit).state
    all_goals simp [move, moveTo, onWaitingForPhase, hs, Answers.next, answers, hc, transitionTable]
  | _ => simp [move, hs, Answers.next]

theorem step_answered (hidle : m.pc ≠ .idle) (hmoving : m.pc ≠ .moving) (a : Answers) :
    (m.answered a).step s f store =
      (m.step s f store).map fun r => (r.1, r.2.1.answered a, r.2.2) := by
  cases hpc : m.pc with
  | idle => exact absurd hpc hidle
  | moving => exact absurd hpc hmoving
  | checking rest =>
    cases rest with
    | nil =>
      simp only [step, answered_pc, hpc, moveTo_answered, Option.map_some]
    | cons =>
      simp only [step, answered_pc, hpc, moveTo_answered]
      split
      all_goals rfl
  | applying =>
    simp only [step, answered_pc, answered_state, answered_detail, hpc]
    split
    · rfl
    · rfl
    · split
      all_goals rfl
  | unlocked =>
    simp only [step, answered_pc, answered_detail, hpc]
    rfl

/-- **A step and its answers**: more answers change nothing, unless the machine was about to wait.
-/
theorem tick_answered (hidle : m.pc ≠ .idle) {b : Answers}
    (hb : b = m.answers ∨ m.answers.Extends b ∧ (tick s (store, m)).2.pc ≠ .idle) :
    tick s (store, m.answered b) = ((tick s (store, m)).1, (tick s (store, m)).2.answered b) := by
  by_cases hmoving : m.pc = .moving
  · have htick : tick s (store, m) = (store, m.move) := by
      simp only [tick, step, hmoving]
      rfl
    have htick' : tick s (store, m.answered b) = (store, (m.answered b).move) := by
      simp only [tick, step, answered_pc, hmoving]
      rfl
    have hnext : b.next m.detail m.state = m.answers.next m.detail m.state := by
      rcases hb with heq | ⟨hext, hne⟩
      · rw [heq]
      rcases hext.next m.detail m.state with hw | heq
      · rw [htick, move_eq] at hne
        exact absurd hw hne
      · exact heq
    rw [htick, htick', move_eq, move_eq]
    show (store, { m.answered b with pc := b.next m.detail m.state }) = _
    rw [hnext]
    rfl
  obtain ⟨store', m', act, hstep⟩ := exists_step hidle
  have hstep' : (m.answered b).step s ⟨false, false⟩ store = some (store', m'.answered b, act) := by
    rw [step_answered hidle hmoving, hstep]
    rfl
  have hidle' : (m.answered b).pc ≠ .idle := hidle
  rw [tick_of_step hidle hstep, tick_of_step hidle' hstep']

end Answered

end Machine

/-! ## §3. The machine comes to wait. -/

/-- How far a state of a machine past `StateWaitingForConsensus1` is from the end. -/
def State.distance : State → Nat
  | .waitingForConsensus1 => 11
  | .rejectPhase1Broadcasted => 1
  | .objectLocked => 10
  | .acceptPhase1Broadcasted => 9
  | .waitingForPhase1 => 8
  | .consensus2Triggered => 7
  | .waitingForConsensus2 => 6
  | .acceptPhase2Broadcasted => 5
  | .rejectPhase2Broadcasted => 1
  | .waitingForPhase2 => 4
  | .objectsDeactivated => 3
  | .objectsCreated => 2
  | .commitObjectsBroadcasted => 1
  | _ => 0

theorem State.distance_le (st : State) : st.distance ≤ 11 := by
  cases st <;> decide

/-- The states of a machine that waits for a commit of other shards. -/
def State.committing : State → Bool
  | .waitingForCommit => true
  | .consensusCommitTriggered => true
  | .waitingForConsensusCommit => true
  | _ => false

/-- The states with an action. -/
def State.waits : State → Bool
  | .waitingForConsensus1 => true
  | .waitingForPhase1 => true
  | .waitingForConsensus2 => true
  | .waitingForPhase2 => true
  | _ => false

theorem distance_lt {st target : State} {t : Transition} (hst : st.committing = false)
    (h : transitionTable st target = some t) :
    target.distance < st.distance ∧ target.committing = false := by
  unfold transitionTable at h
  split at h
  all_goals first
    | exact ⟨by decide, rfl⟩
    | exact absurd hst (by decide)
    | cases h

theorem waits_of_creates {st target : State} (hst : st.committing = false)
    (h : transitionTable st target = some .toObjectsCreated) : st.waits = false := by
  unfold transitionTable at h
  split at h
  all_goals first
    | rfl
    | exact absurd hst (by decide)
    | cases h

theorem Answers.next_cases (a : Answers) (d : DetailTx) {st : State} (hst : st.committing = false) :
    a.next d st = .idle ∨ (st = .waitingForConsensus1 ∧ a.next d st = .checking d.tx.traces) ∨
      ∃ target, a.next d st = .applying target ∧ (transitionTable st target).isSome = true ∧
        st.waits = true := by
  cases st with
  | waitingForConsensus1 =>
    unfold Answers.next
    cases a.consensus .consensus1 with
    | waiting => exact .inl rfl
    | rejected => exact .inr (.inr ⟨_, rfl, rfl, rfl⟩)
    | accepted => exact .inr (.inl ⟨rfl, rfl⟩)
  | waitingForConsensus2 =>
    unfold Answers.next
    cases a.consensus .consensus2 with
    | waiting => exact .inl rfl
    | rejected | accepted => exact .inr (.inr ⟨_, rfl, rfl, rfl⟩)
  | waitingForPhase1 =>
    unfold Answers.next
    cases a.phases .phase1 with
    | waiting => exact .inl rfl
    | rejected | accepted => exact .inr (.inr ⟨_, rfl, rfl, rfl⟩)
  | waitingForPhase2 =>
    unfold Answers.next
    cases a.phases .phase2 with
    | waiting => exact .inl rfl
    | rejected | accepted => exact .inr (.inr ⟨_, rfl, rfl, rfl⟩)
  | waitingForCommit | waitingForConsensusCommit => exact absurd hst (by decide)
  | _ => exact .inl rfl

/-- When nothing fails, only `toObjectsCreated` can return an error. -/
theorem callTransition_fails {s : Service} {d : DetailTx} {store : Store} {t : Transition}
    (hne : t ≠ .toAborted) (h : (callTransition s ⟨false, false⟩ d store t).next = none) :
    t = .toObjectsCreated := by
  cases t with
  | toObjectsCreated => rfl
  | toAborted => exact absurd rfl hne
  | toObjectLocked | toObjectDeactivated | toConsensus2Triggered | toConsensusCommitTriggered =>
    simp only [callTransition, toObjectLocked, toObjectDeactivated, toConsensus2Triggered,
      toConsensusCommitTriggered, triggerConsensus] at h
    split at h
    all_goals cases h
  | _ => exact absurd h (by simp [callTransition, toRejectPhase1Broadcasted,
      toAcceptPhase1Broadcasted, toRejectPhase2Broadcasted, toAcceptPhase2Broadcasted,
      toCommitObjectsBroadcasted, sendDecision, toSucceeded])

namespace Machine

/-- The part of the way to the end that `pc` stands for. A failed transition leads back to the loop
of `moveState`, where the machine stops: its state has no action. -/
def pcWeight (m : Machine) : Nat :=
  match m.pc with
  | .idle => 0
  | .moving => m.detail.tx.traces.length + 4
  | .checking rest => rest.length + 3
  | .applying target =>
    if (transitionTable m.state target).isSome ∧ m.state.waits then 2
    else m.detail.tx.traces.length + 5
  | .unlocked => 1

/-- A bound for the steps a machine can take before it waits. -/
def weight (m : Machine) : Nat :=
  m.state.distance * (m.detail.tx.traces.length + 6) + m.pcWeight

/-- What holds of a machine that started in `StateWaitingForConsensus1`. -/
structure Early (m : Machine) : Prop where
  state : m.state.committing = false
  checking : ∀ rest, m.pc = .checking rest → m.state = .waitingForConsensus1
  unlocked : m.pc = .unlocked → 0 < m.state.distance

section Weight
variable {s : Service} {store store' : Store} {m m' : Machine} {act : Option Act}

theorem Early.lighter (h : m.Early) {pc : Pc} (hpc : ∀ rest, pc ≠ .checking rest)
    (hunlocked : pc = .unlocked → 0 < m.state.distance)
    (hweight : pcWeight { m with pc := pc } < m.pcWeight) :
    Early { m with pc := pc } ∧ weight { m with pc := pc } < m.weight :=
  ⟨⟨h.state, fun rest hrest => absurd hrest (hpc rest), hunlocked⟩, Nat.add_lt_add_left hweight _⟩

theorem early_closer {target next : State}
    (hdistance : target.distance < m.state.distance) (htarget : target.committing = false) :
    Early { m with state := target, pc := .applying next } ∧
      weight { m with state := target, pc := .applying next } < m.weight := by
  refine ⟨⟨htarget, fun _ hpc => absurd hpc (by simp), fun hpc => absurd hpc (by simp)⟩, ?_⟩
  have hpc : pcWeight { m with state := target, pc := .applying next } <
      m.detail.tx.traces.length + 6 := by
    simp only [pcWeight]
    split
    all_goals omega
  have hmul : (target.distance + 1) * (m.detail.tx.traces.length + 6) ≤
      m.state.distance * (m.detail.tx.traces.length + 6) := Nat.mul_le_mul_right _ hdistance
  rw [Nat.succ_mul] at hmul
  unfold weight
  dsimp only
  omega

theorem Early.checked (h : m.Early) {rest : List Trace} (hpc : m.pc = .checking rest)
    {st : State} (ht : (transitionTable .waitingForConsensus1 st).isSome = true)
    (hne : st ≠ .waitingForConsensus1) :
    (m.moveTo st).Early ∧ (m.moveTo st).weight < m.weight := by
  have hstate := h.checking rest hpc
  rw [moveTo_eq (.inr (by rw [hstate]; exact ht)), if_neg (by rw [hstate]; exact hne)]
  refine h.lighter (by simp) (by simp) ?_
  have hold : m.pcWeight = rest.length + 3 := by simp only [pcWeight, hpc]
  have hnew : pcWeight { m with pc := .applying st } = 2 := by
    simp [pcWeight, hstate, ht, State.waits]
  omega

/-- **A step leads towards the end**, if transitions fail in states without an action only. -/
theorem Early.steps (h : m.Early) (hidle : m.pc ≠ .idle) {f : Faults}
    (hfails : ∀ target t, m.pc = .applying target → transitionTable m.state target = some t →
      t ≠ .toAborted → (callTransition s f m.detail store t).next = none → m.state.waits = false)
    (hstep : m.Steps s f store store' m' act) : m'.Early ∧ m'.weight < m.weight := by
  cases hstep with
  | consume e rest m1 hpc => exact absurd hpc hidle
  | move hpc =>
    have hold : m.pcWeight = m.detail.tx.traces.length + 4 := by simp only [pcWeight, hpc]
    rw [move_eq]
    rcases m.answers.next_cases m.detail h.state with
      hnext | ⟨hstate, hnext⟩ | ⟨target, hnext, ht, hwaits⟩
    · rw [hnext]
      refine h.lighter (by simp) (by simp) ?_
      show 0 < m.pcWeight
      omega
    · rw [hnext]
      refine ⟨⟨h.state, fun _ _ => hstate, fun hpc => absurd hpc (by simp)⟩, ?_⟩
      refine Nat.add_lt_add_left ?_ _
      show m.detail.tx.traces.length + 3 < m.pcWeight
      omega
    rw [hnext]
    refine h.lighter (by simp) (by simp) ?_
    have hnew : pcWeight { m with pc := .applying target } = 2 := by
      simp [pcWeight, ht, hwaits]
    omega
  | checked hpc | unusable t rest hpc => exact h.checked hpc rfl (by simp)
  | check t rest hpc =>
    have hold : m.pcWeight = (t :: rest).length + 3 := by simp only [pcWeight, hpc]
    refine ⟨⟨h.state, fun _ _ => h.checking _ hpc, fun hpc => absurd hpc (by simp)⟩, ?_⟩
    refine Nat.add_lt_add_left ?_ _
    show rest.length + 3 < m.pcWeight
    rw [hold, List.length_cons]
    omega
  | stay target hpc ht =>
    have hold : m.pcWeight = m.detail.tx.traces.length + 5 := by simp [pcWeight, hpc, ht]
    refine h.lighter (by simp) (by simp) ?_
    show m.detail.tx.traces.length + 4 < m.pcWeight
    omega
  | unlock target hpc ht =>
    have hold : 2 ≤ m.pcWeight := by
      simp only [pcWeight, hpc]
      split
      · exact Nat.le_refl 2
      · omega
    have hdistance := (distance_lt h.state ht).1
    refine h.lighter (by simp) (fun _ => by omega) ?_
    show 1 < m.pcWeight
    omega
  | failed target t hpc ht hne hnext =>
    -- The state has no action, so the machine stops at the head of the loop.
    have hwaits : m.state.waits = false := hfails target t hpc ht hne hnext
    have hold : m.pcWeight = m.detail.tx.traces.length + 5 := by simp [pcWeight, hpc, hwaits]
    refine h.lighter (by simp) (by simp) ?_
    show m.detail.tx.traces.length + 4 < m.pcWeight
    omega
  | applied target next t _ ht =>
    obtain ⟨hdistance, hcommitting⟩ := distance_lt h.state ht
    exact early_closer hdistance hcommitting
  | finished hpc =>
    have hdistance := h.unlocked hpc
    exact early_closer hdistance rfl

theorem Early.tick (h : m.Early) (hidle : m.pc ≠ .idle) :
    (Machine.tick s (store, m)).2.Early ∧ (Machine.tick s (store, m)).2.weight < m.weight := by
  obtain ⟨act, hstep⟩ := tick_steps hidle
  refine h.steps hidle ?_ hstep
  intro target t _ ht hne hnext
  exact waits_of_creates h.state (callTransition_fails hne hnext ▸ ht)

theorem Early.distance_le (h : m.Early) {f : Faults} (hstep : m.Steps s f store store' m' act) :
    m'.state.distance ≤ m.state.distance := by
  have hchecking : ∀ rest, m.pc = .checking rest → m'.state.distance ≤ m.state.distance := by
    intro rest hpc
    rw [h.checking rest hpc]
    exact m'.state.distance_le
  cases hstep with
  | consume e rest m1 _ _ hev =>
    rw [(processEvent_same hev).2.1]
  | move =>
    rw [move_eq]
  | checked hpc => exact hchecking _ hpc
  | check | stay | unlock
  | failed => exact Nat.le_refl _
  | unusable t rest hpc => exact hchecking _ hpc
  | applied target next t _ ht => exact Nat.le_of_lt (distance_lt h.state ht).1
  | finished => exact Nat.zero_le _

/-- **The machine comes to wait**: `moveState` returns. -/
theorem Early.settles (h : m.Early) {k : Nat} (hk : m.weight ≤ k) :
    ((Machine.tick s)^[k] (store, m)).2.pc = .idle := by
  induction k generalizing store m with
  | zero =>
    by_contra hidle
    have hless : (Machine.tick s (store, m)).2.weight < m.weight := (h.tick hidle).2
    omega
  | succ k ih =>
    by_cases hidle : m.pc = .idle
    · rw [Function.iterate_fixed (tick_idle hidle)]
      exact hidle
    rw [Function.iterate_succ_apply]
    obtain ⟨hearly, hless⟩ : (Machine.tick s (store, m)).2.Early ∧
        (Machine.tick s (store, m)).2.weight < m.weight := h.tick hidle
    generalize Machine.tick s (store, m) = w at hearly hless ⊢
    exact ih hearly (Nat.le_of_lt_succ (Nat.lt_of_lt_of_le hless hk))

/-- Only the loop of `moveState` comes to wait, for want of an answer. -/
theorem Early.tick_to_idle (h : m.Early) (hidle : m.pc ≠ .idle)
    (hpc : (Machine.tick s (store, m)).2.pc = .idle) :
    m.pc = .moving ∧ Machine.tick s (store, m) = (store, { m with pc := .idle }) ∧
      m.answers.next m.detail m.state = .idle := by
  by_cases hmoving : m.pc = .moving
  · have htick : Machine.tick s (store, m) = (store, m.move) := by
      simp only [Machine.tick, step, hmoving]
      rfl
    rw [htick, move_eq] at hpc ⊢
    have hpc : m.answers.next m.detail m.state = .idle := hpc
    rw [hpc]
    exact ⟨hmoving, rfl, rfl⟩
  -- Every other step goes on.
  obtain ⟨act, hstep⟩ : ∃ act, m.Steps s ⟨false, false⟩ store
      (Machine.tick s (store, m)).1 (Machine.tick s (store, m)).2 act := tick_steps hidle
  generalize Machine.tick s (store, m) = w at hstep hpc
  obtain ⟨store', m'⟩ := w
  have hchecking : ∀ rest st, m.pc = .checking rest →
      (transitionTable .waitingForConsensus1 st).isSome = true → st ≠ .waitingForConsensus1 →
      (m.moveTo st).pc ≠ .idle := by
    intro rest st hrest ht hne
    have hstate := h.checking rest hrest
    rw [moveTo_eq (.inr (by rw [hstate]; exact ht)), if_neg (by rw [hstate]; exact hne)]
    simp
  cases hstep with
  | consume e rest m1 hpc' => exact absurd hpc' hidle
  | move hpc' => exact absurd hpc' hmoving
  | checked hpc' | unusable t rest hpc' =>
    exact absurd hpc (hchecking _ _ hpc' rfl (by simp))
  | _ => cases hpc

end Weight

end Machine

/-! ## §4. Where the machine waits. -/

namespace Machine

/-- A machine that waits, as it was when it last asked for an answer. -/
def awake (m : Machine) : Machine :=
  { m with pc := match m.pc with
    | .idle => .moving
    | pc => pc }

theorem awake_of_ne {m : Machine} (h : m.pc ≠ .idle) : m.awake = m := by
  unfold awake
  split
  next hidle => exact absurd hidle h
  · rfl

/-- **The way of a machine** from its start: further answers do not change it, and where it waits it
had no answer to go on with. -/
structure Underway (s : Service) (start : Store × Machine) (w : Store × Machine) : Prop where
  early : w.2.Early
  quiet : w.2.pc = .idle → w.2.answers.next w.2.detail w.2.state = .idle
  follows : ∀ b, w.2.answers.Extends b →
    ∃ k, (tick s)^[k] (start.1, start.2.answered b) = (w.1, w.2.awake.answered b)

section Underway
variable {s : Service} {start w w₁ w₂ : Store × Machine} {store : Store} {m m' : Machine}

theorem tick_same (s : Service) (w : Store × Machine) : (tick s w).2 =
    { w.2 with state := (tick s w).2.state, pc := (tick s w).2.pc } := by
  obtain ⟨store, m⟩ := w
  by_cases hidle : m.pc = .idle
  · rw [tick_idle hidle]
  obtain ⟨act, hstep⟩ : ∃ act, m.Steps s ⟨false, false⟩ store
      (tick s (store, m)).1 (tick s (store, m)).2 act := tick_steps hidle
  rcases hstep.same with ⟨hpc, _⟩ | heq
  · exact absurd hpc hidle
  · exact heq

theorem iterate_tick_same (s : Service) (k : Nat) (w : Store × Machine) : ((tick s)^[k] w).2 =
    { w.2 with state := ((tick s)^[k] w).2.state, pc := ((tick s)^[k] w).2.pc } := by
  induction k with
  | zero => rfl
  | succ k ih =>
    rw [Function.iterate_succ_apply', tick_same, ih]

theorem Underway.tick (h : Underway s start w) : Underway s start (Machine.tick s w) := by
  obtain ⟨store, m⟩ := w
  by_cases hidle : m.pc = .idle
  · rw [tick_idle hidle]
    exact h
  have hanswers : (Machine.tick s (store, m)).2.answers = m.answers := by
    rw [tick_same]
    rfl
  refine ⟨(h.early.tick hidle).1, ?_, ?_⟩
  · intro hpc
    obtain ⟨_, htick, hnext⟩ := h.early.tick_to_idle hidle hpc
    rw [htick]
    exact hnext
  intro b hb
  rw [hanswers] at hb
  obtain ⟨k, hk⟩ := h.follows b hb
  rw [awake_of_ne hidle] at hk
  by_cases hpc : (Machine.tick s (store, m)).2.pc = .idle
  · -- The machine asked in vain: it stands where it stood.
    obtain ⟨hmoving, htick, _⟩ := h.early.tick_to_idle hidle hpc
    refine ⟨k, ?_⟩
    rw [hk, htick]
    show (store, m.answered b) = (store, answered { m with pc := .moving } b)
    rw [← hmoving]
  refine ⟨k + 1, ?_⟩
  rw [Function.iterate_succ_apply', hk, awake_of_ne hpc]
  exact tick_answered hidle (.inr ⟨hb, hpc⟩)

theorem Underway.iterate (h : Underway s start w) (k : Nat) :
    Underway s start ((Machine.tick s)^[k] w) := by
  induction k with
  | zero => exact h
  | succ k ih =>
    rw [Function.iterate_succ_apply']
    exact ih.tick

theorem processEvent_extends {e : Event} (h : m.processEvent s e = some m') :
    m.answers.Extends m'.answers := by
  rcases processEvent_cases h with h | ⟨data, c, _, _, hc, h⟩ | ⟨msg, c, _, _, hc, h⟩
  · rw [h]
    exact .refl _
  · subst h
    refine ⟨?_, fun op => .inr rfl⟩
    intro op
    show m.consensus op = .waiting ∨ (if op = data.op then c else m.consensus op) = m.consensus op
    by_cases hop : op = data.op
    · subst hop
      rw [if_pos rfl]
      unfold StateConsensus.processEvent at hc
      split at hc
      · injection hc with hc
        exact .inr hc.symm
      next hwaiting => exact .inl (not_not.mp hwaiting)
    · rw [if_neg hop]
      exact .inr rfl
  subst h
  refine ⟨fun op => .inr rfl, ?_⟩
  intro op
  show (m.sbac op).state = .waiting ∨
    (if op = msg.op then c else m.sbac op).state = (m.sbac op).state
  by_cases hop : op = msg.op
  · subst hop
    rw [if_pos rfl]
    unfold SBACStateMachine.processEvent at hc
    split at hc
    · injection hc with hc
      exact .inr (by rw [hc])
    next hwaiting => exact .inl (not_not.mp hwaiting)
  · rw [if_neg hop]
    exact .inr rfl

theorem Underway.reaches (h : Underway s start w) (hpc : w.2.pc = .idle) :
    ∃ k, (Machine.tick s)^[k] (start.1, start.2.answered w.2.answers) =
      (w.1, w.2.answered w.2.answers) := by
  obtain ⟨k, hk⟩ := h.follows w.2.answers (.refl _)
  refine ⟨k + 1, ?_⟩
  rw [Function.iterate_succ_apply', hk]
  have hmoving : (w.2.awake.answered w.2.answers).pc = .moving := by
    unfold awake
    rw [answered_pc, hpc]
  have htick : Machine.tick s (w.1, w.2.awake.answered w.2.answers) =
      (w.1, (w.2.awake.answered w.2.answers).move) := by
    simp only [Machine.tick, step, hmoving]
    rfl
  rw [htick, move_eq]
  have hnext : (w.2.awake.answered w.2.answers).answers.next w.2.detail w.2.state = .idle :=
    h.quiet hpc
  show (w.1, { w.2.answered w.2.answers with
    pc := (w.2.awake.answered w.2.answers).answers.next w.2.detail w.2.state }) = _
  rw [hnext, ← hpc]
  rfl

/-- **Where a machine waits is settled by its answers.** -/
theorem Underway.unique (h₁ : Underway s start w₁) (h₂ : Underway s start w₂)
    (hpc₁ : w₁.2.pc = .idle) (hpc₂ : w₂.2.pc = .idle) (hanswers : w₁.2.answers = w₂.2.answers) :
    w₁.1 = w₂.1 ∧ w₁.2.state = w₂.2.state := by
  obtain ⟨k₁, hk₁⟩ := h₁.reaches hpc₁
  obtain ⟨k₂, hk₂⟩ := h₂.reaches hpc₂
  rw [← hanswers] at hk₂
  have heq : (w₁.1, w₁.2.answered w₁.2.answers) = (w₂.1, w₂.2.answered w₁.2.answers) :=
    iterate_fixed_unique hk₁ hk₂ (tick_idle hpc₁) (tick_idle hpc₂)
  injection heq with hstore hmachine
  have hstate : (w₁.2.answered w₁.2.answers).state = (w₂.2.answered w₁.2.answers).state :=
    congrArg Machine.state hmachine
  exact ⟨hstore, hstate⟩

/-- Enough steps for `moveState` to return, for the machine of a transaction. -/
def moveBound (d : DetailTx) : Nat := 12 * (d.tx.traces.length + 6)

theorem weight_le_moveBound (hpc : m.pc = .moving ∨ m.pc = .idle) :
    m.weight ≤ moveBound m.detail := by
  have hdistance := m.state.distance_le
  have hmul := Nat.mul_le_mul_right (m.detail.tx.traces.length + 6) hdistance
  have hweight : m.pcWeight ≤ m.detail.tx.traces.length + 4 := by
    rcases hpc with hpc | hpc
    · simp only [pcWeight, hpc]
      exact Nat.le_refl _
    · simp only [pcWeight, hpc]
      exact Nat.zero_le _
  unfold weight moveBound
  omega

theorem underway_new (store : Store) (d : DetailTx) :
    Underway s (store, (Machine.new d .waitingForConsensus1).awake)
      (store, .new d .waitingForConsensus1) where
  early := ⟨rfl, fun _ hpc => absurd hpc (by simp [Machine.new]),
    fun hpc => absurd hpc (by simp [Machine.new])⟩
  quiet := fun _ => rfl
  follows := fun _ _ => ⟨0, rfl⟩

theorem consumeEvent_eq (k : Nat) (e : Event) (hpc : m.pc = .idle) :
    consumeEvent s k (store, m) e = (processEvent s { m with events := [] } e).map fun m₁ =>
      (Machine.tick s)^[k] (store, { m₁ with
        pc := if m.state = .succeeded ∨ m.state = .aborted then .idle else .moving }) := by
  obtain ⟨detail, consensus, sbac, state, pc, events⟩ := m
  subst hpc
  unfold consumeEvent step
  dsimp only
  cases processEvent s ⟨detail, consensus, sbac, state, .idle, []⟩ e with
  | none | some => rfl

theorem Underway.hear (h : Underway s start (store, m)) (hpc : m.pc = .idle) {e : Event}
    (hm' : processEvent s { m with events := [] } e = some m') :
    Underway s start (store, { m' with
      pc := if m.state = .succeeded ∨ m.state = .aborted then .idle else .moving }) := by
  have hext : (answers { m with events := [] }).Extends m'.answers := processEvent_extends hm'
  obtain ⟨hdetail, hstate, _⟩ := processEvent_same hm'
  refine ⟨⟨?_, ?_, ?_⟩, ?_, ?_⟩
  · show m'.state.committing = false
    rw [hstate]
    exact h.early.state
  · intro rest hrest
    split at hrest
    all_goals cases hrest
  · intro hunlocked
    split at hunlocked
    all_goals cases hunlocked
  · intro hidle
    rw [hstate]
    split at hidle
    next hend =>
      rcases hend with hend | hend
      · rw [show m.state = .succeeded from hend]
        rfl
      · rw [show m.state = .aborted from hend]
        rfl
    · cases hidle
  intro b hb
  obtain ⟨k, hk⟩ := h.follows b (hext.trans hb)
  refine ⟨k, ?_⟩
  rw [hk]
  have hmoving : m.awake = { m with pc := .moving } := by
    unfold awake
    rw [hpc]
  have hmoving' : awake { m' with
      pc := if m.state = .succeeded ∨ m.state = .aborted then .idle else .moving } =
        { m' with pc := .moving } := by
    split
    all_goals rfl
  rw [hmoving, hmoving']
  unfold answered
  rw [hdetail, hstate]

/-- **An event is consumed**: the machine comes to wait again, still on its way. -/
theorem Underway.consume (h : Underway s start (store, m)) (hpc : m.pc = .idle) {k : Nat}
    (hk : moveBound m.detail ≤ k) {e : Event} (hc : consumeEvent s k (store, m) e = some w) :
    Underway s start w ∧ w.2.pc = .idle ∧ ∃ m₁,
      processEvent s { m with events := [] } e = some m₁ ∧ w.2.detail = m₁.detail ∧
        w.2.consensus = m₁.consensus ∧ w.2.sbac = m₁.sbac := by
  rw [consumeEvent_eq k e hpc] at hc
  obtain ⟨m₁, hm₁, hw⟩ := Option.map_eq_some_iff.mp hc
  have hheard := h.hear hpc hm₁
  have hbound : weight { m₁ with
      pc := if m.state = .succeeded ∨ m.state = .aborted then .idle else .moving } ≤ k := by
    refine Nat.le_trans (weight_le_moveBound ?_) ?_
    · split
      · exact .inr rfl
      · exact .inl rfl
    show moveBound m₁.detail ≤ k
    rw [(processEvent_same hm₁).1]
    exact hk
  rw [← hw]
  refine ⟨hheard.iterate k, hheard.early.settles hbound, m₁, hm₁, ?_⟩
  rw [iterate_tick_same]
  exact ⟨rfl, rfl, rfl⟩

end Underway

end Machine

end Chainspace.Sbac
