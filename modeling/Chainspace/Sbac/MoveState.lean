/-
  Chainspace.Sbac.MoveState — does `moveState` return?
  (`sbac/state_machine.go`.)

  `moveState` runs the action of the state, applies the transitions that follow from it, and starts
  over, also after an error. If it comes back to the state it started in, and the call gives the
  same result again, the loop never ends. There are three such places: the consensus of phase 2 and
  the one of a commit can not be encoded, or the objects of a commit can not be created. A machine
  spins in one of these, or returns (`moveState_returns_iff`).
-/
import Chainspace.Lib.Halting
import Chainspace.Sbac.Consume
import Chainspace.Sbac.Node

namespace Chainspace.Sbac

open Chainspace.Lib

/-! ## §1. The loop. -/

/-- **The outcome of every call**: the same call on the same store gives the same result. Store
calls and encodings are known by the function that makes them. -/
structure Outcomes where
  /-- `objectsExists` fails on a trace -/
  read : Store → Trace → Bool
  /-- the store call of a transition function fails; for `toAborted`, that is `UnlockObjects` -/
  db : Store → Transition → Bool
  /-- `FinishTransaction` fails in `toAborted` -/
  finish : Store → Bool
  /-- the message of a transition function can not be signed or encoded -/
  marshal : Transition → Bool

def Outcomes.faults (F : Outcomes) (store : Store) (m : Machine) : Faults :=
  match m.pc with
  | .checking (t :: _) => ⟨F.read store t, false⟩
  | .applying target =>
    match transitionTable m.state target with
    | some t => ⟨F.db store t, F.marshal t⟩
    | none => ⟨false, false⟩
  | .unlocked => ⟨F.finish store, false⟩
  | _ => ⟨false, false⟩

namespace Machine

/-- The next step, unless the machine waits for an event. -/
def advance (s : Service) (F : Outcomes) (w : Store × Machine) : Option (Store × Machine) :=
  match w.2.pc with
  | .idle => none
  | _ => (w.2.step s (F.faults w.1 w.2) w.1).map fun r => (r.1, r.2.1)

/-- `moveState`: steps until the machine waits for an event.  It may not return. -/
def moveState (s : Service) (F : Outcomes) (store : Store) (m : Machine) :
    Part (Store × Machine) :=
  StateTransition.eval (advance s F) (store, { m with pc := .moving })

def Returns (s : Service) (F : Outcomes) (store : Store) (m : Machine) : Prop :=
  (StateTransition.eval (advance s F) (store, m)).Dom

abbrev called (s : Service) (F : Outcomes) (store : Store) (m : Machine) (t : Transition) :
    Applied :=
  callTransition s ⟨F.db store t, F.marshal t⟩ m.detail store t

def put (m : Machine) (st : State) (pc : Pc) : Machine := { m with state := st, pc := pc }

/-! ## §2. Its steps. -/

section Steps
variable {s : Service} {F : Outcomes} {store store' : Store} {m m' : Machine} {st target : State}

theorem returns_of_idle (hpc : m.pc = .idle) : Returns s F store m := by
  apply eval_dom_of_none
  unfold advance
  rw [hpc]

variable {act : Option Act} {t : Transition}

theorem advance_of_step (hpc : m.pc ≠ .idle)
    (h : m.step s (F.faults store m) store = some (store', m', act)) :
    advance s F (store, m) = some (store', m') := by
  unfold advance
  split
  next hidle => exact absurd hidle hpc
  show (m.step s (F.faults store m) store).map _ = _
  rw [h]
  rfl

theorem returns_iff (hpc : m.pc ≠ .idle)
    (h : m.step s (F.faults store m) store = some (store', m', act)) :
    Returns s F store m ↔ Returns s F store' m' :=
  eval_dom_iff (advance_of_step hpc h)

theorem step_moving (f : Faults) (store : Store) (m : Machine) (st : State) :
    (m.put st .moving).step s f store =
      some (store, m.put st (m.answers.next m.detail st), none) := by
  show some (store, (m.put st .moving).move, none) = _
  rw [move_eq]
  rfl

theorem returns_moving : Returns s F store (m.put st .moving) ↔
      Returns s F store (m.put st (m.answers.next m.detail st)) :=
  returns_iff (by simp [put]) (step_moving _ store m st)

theorem returns_stay (h : transitionTable st target = none) :
    Returns s F store (m.put st (.applying target)) ↔ Returns s F store (m.put st .moving) := by
  refine returns_iff (by simp [put]) (?_ : _ = some (store, m.put st .moving, none))
  simp [step, put, h]

theorem faults_applying (h : transitionTable st target = some t) :
    F.faults store (m.put st (.applying target)) = ⟨F.db store t, F.marshal t⟩ := by
  simp [Outcomes.faults, put, h]

variable (s store m) in
theorem step_call (f : Faults) (h : transitionTable st target = some t) (hne : t ≠ .toAborted) :
    (m.put st (.applying target)).step s f store =
      some ((callTransition s f m.detail store t).store,
        match (callTransition s f m.detail store t).next with
        | none => m.put st .moving
        | some next => m.put target (.applying next),
        (callTransition s f m.detail store t).act) := by
  obtain ⟨store', m', act, hstep⟩ : ∃ store' m' act,
      (m.put st (.applying target)).step s f store = some (store', m', act) :=
    exists_step (by simp [put])
  obtain ⟨hstore, hact, hnext⟩ := (step_cases hstep).of_calls rfl h hne
  rw [hstep]
  rw [hstore, hact]
  rcases hnext with ⟨hnone, hm'⟩ | ⟨next, hsome, hm'⟩
  · have hnone : (callTransition s f m.detail store t).next = none := hnone
    rw [hnone, hm']
    rfl
  have hsome : (callTransition s f m.detail store t).next = some next := hsome
  rw [hsome, hm']
  rfl

theorem returns_call {st' : Store} {next : State}
    (h : transitionTable st target = some t) (hne : t ≠ .toAborted)
    (hcall : called s F store m t = ⟨st', some next, act⟩) :
    Returns s F store (m.put st (.applying target)) ↔
      Returns s F st' (m.put target (.applying next)) := by
  have hstep := step_call s store m ⟨F.db store t, F.marshal t⟩ h hne
  unfold called at hcall
  rw [hcall, ← faults_applying h] at hstep
  exact returns_iff (by simp [put]) hstep

/-- **The call fails, and the action of the state asks for it again.** -/
theorem not_returns_of_call (h : transitionTable st target = some t) (hne : t ≠ .toAborted)
    (hnext : m.answers.next m.detail st = .applying target)
    (hcall : called s F store m t = ⟨store, none, act⟩) :
    ¬ Returns s F store (m.put st .moving) := by
  have hmoving : advance s F (store, m.put st .moving) =
      some (store, m.put st (.applying target)) := by
    rw [← hnext]
    exact advance_of_step (by simp [put]) (step_moving _ store m st)
  have happlying : advance s F (store, m.put st (.applying target)) =
      some (store, m.put st .moving) := by
    have hstep := step_call s store m ⟨F.db store t, F.marshal t⟩ h hne
    unfold called at hcall
    rw [hcall, ← faults_applying h] at hstep
    exact advance_of_step (by simp [put]) hstep
  -- The loop alternates between two positions.
  apply not_eval_dom (P := fun w => w = (store, m.put st .moving) ∨
    w = (store, m.put st (.applying target)))
  · intro w hw
    rcases hw with hw | hw
    · exact ⟨_, hw ▸ hmoving, .inr rfl⟩
    · exact ⟨_, hw ▸ happlying, .inl rfl⟩
  · exact .inl rfl

end Steps

/-! ## §3. States that are always left. -/

section Left
variable {s : Service} {F : Outcomes} {store : Store} {m : Machine} {st target : State}

theorem returns_waiting (hnext : m.answers.next m.detail st = .idle) :
    Returns s F store (m.put st .moving) := by
  rw [returns_moving, hnext]
  exact returns_of_idle rfl

/-- Behind the first phase a transition fails in a state without an action only. -/
theorem waits_of_failed {f : Faults} {d : DetailTx} {t : Transition}
    (hst : st.committing = false) (hlate : st.distance < 8)
    (ht : transitionTable st target = some t) (hne : t ≠ .toAborted)
    (hnext : (callTransition s f d store t).next = none) : st.waits = false := by
  have hsource := (transitionTable_iff.mp ht).1
  have hcall := callTransition_called s f d store t
  generalize callTransition s f d store t = r at hcall hnext
  cases hcall with
  | createFailed => exact waits_of_creates hst ht
  | notTriggered t _ huse =>
    -- The consensuses are started in earlier states, or for a commit.
    cases t
    all_goals first
      | exact absurd huse (by decide)
      | (simp only [Transition.sources, List.mem_cons, List.not_mem_nil, or_false] at hsource
         subst hsource
         first
           | exact absurd hlate (by decide)
           | exact absurd hst (by decide))
  | aborts => exact absurd rfl hne
  | _ => cases hnext

/-- **Behind the first phase a machine comes to wait.** -/
theorem returns_late (hearly : m.Early) (hlate : m.state.distance < 8) : Returns s F store m := by
  refine eval_dom_of_measure (P := fun w : Store × Machine => w.2.Early ∧ w.2.state.distance < 8)
    (fun w => w.2.weight) ?_ ⟨hearly, hlate⟩
  rintro ⟨store, m⟩ ⟨store', m'⟩ ⟨hearly, hlate⟩ hadvance
  have hidle : m.pc ≠ .idle := by
    intro hpc
    simp [advance, hpc] at hadvance
  obtain ⟨store₁, m₁, act, hstep⟩ : ∃ store₁ m₁ act,
      m.step s (F.faults store m) store = some (store₁, m₁, act) := exists_step hidle
  rw [advance_of_step hidle hstep] at hadvance
  cases hadvance
  have hsteps := step_cases hstep
  obtain ⟨hearly', hlight⟩ := hearly.steps hidle
    (fun target t _ ht hne hnext => waits_of_failed hearly.state hlate ht hne hnext) hsteps
  exact ⟨⟨hearly', Nat.lt_of_le_of_lt (hearly.distance_le hsteps) hlate⟩, hlight⟩

theorem returns_put {pc : Pc} (hchecking : ∀ rest, pc ≠ .checking rest) (hunlocked : pc ≠ .unlocked)
    (hst : st.committing = false) (hlate : st.distance < 8) : Returns s F store (m.put st pc) :=
  returns_late ⟨hst, fun rest hpc => absurd hpc (hchecking rest), fun hpc => absurd hpc hunlocked⟩
    hlate

theorem returns_applying (hst : st.committing = false) (hlate : st.distance < 8) :
    Returns s F store (m.put st (.applying target)) :=
  returns_put (by simp) (by simp) hst hlate

theorem returns_abort (h : transitionTable st target = some .toAborted) :
    Returns s F store (m.put st (.applying target)) := by
  have hunlock : ∀ f : Faults, (m.put st (.applying target)).step s f store =
      some ((unlockInputs s f m.detail store).1, m.put st .unlocked,
        some (unlockInputs s f m.detail store).2) := by
    intro f
    simp [step, put, h]
  have hfinish : ∀ (f : Faults) (st' : Store), (m.put st .unlocked).step s f st' =
      some ((st'.update f.db (fun x => .ok (x.finishTransaction m.detail.id))).1,
        m.put .aborted (.applying .aborted), some .finish) := fun _ _ => rfl
  rw [returns_iff (by simp [put]) (hunlock _), returns_iff (by simp [put]) (hfinish _ _)]
  exact returns_applying rfl (by decide)

end Left

/-! ## §4. States that may not be. -/

/-- A machine past the first consensus gives its accept vote: the inputs are usable, can be locked
and are not all in the own shard, and the vote can be signed. -/
structure GivesVote (s : Service) (F : Outcomes) (store : Store) (m : Machine) : Prop where
  accepted : m.consensus .consensus1 = .accepted
  usable : ∀ t ∈ m.detail.tx.traces, s.traceUsable (F.read store t) store t = true
  locks : F.db store .toObjectLocked = false ∧
    ∃ st, store.lockObjects (s.inputObjectsForShard m.detail.tx).1 = .ok st
  shared : (s.inputObjectsForShard m.detail.tx).2 = false
  signed : F.marshal .toAcceptPhase1Broadcasted = false

/-- If it is up to this node to start the consensus, its message can be encoded. -/
def Encodes (s : Service) (F : Outcomes) (m : Machine) (t : Transition) : Prop :=
  s.isNodeInitiatingBroadcast m.detail.hashID = true → F.marshal t = false

def Creates (s : Service) (F : Outcomes) (store : Store) (m : Machine) : Prop :=
  F.db store .toObjectsCreated = false ∧
    ∃ st, store.createObjects (s.outputObjectsForShard m.detail.tx).1 = .ok st

/-- **No call that is asked for again fails.** -/
structure NoSpin (s : Service) (F : Outcomes) (store : Store) (m : Machine) : Prop where
  /-- the consensus of the second phase -/
  phase1 : m.state = .waitingForPhase1 ∨ m.state = .waitingForConsensus1 ∧ GivesVote s F store m →
    (m.sbac .phase1).state = .accepted → Encodes s F m .toConsensus2Triggered
  /-- the consensus of a commit -/
  commit : m.state = .waitingForCommit → (m.sbac .commit).state = .accepted →
    Encodes s F m .toConsensusCommitTriggered
  /-- the objects of a commit -/
  create : m.state = .waitingForConsensusCommit ∨
      m.state = .waitingForCommit ∧ (m.sbac .commit).state = .accepted →
    m.consensus .consensusCommit = .accepted → Creates s F store m

section Spin
variable {s : Service} {F : Outcomes} {store : Store} {m : Machine} {st : State}

theorem returns_iff_of_accepted {acc P : Prop}
    (habort : transitionTable st .aborted = some .toAborted)
    (hnot : ¬ acc → m.answers.next m.detail st = .idle ∨
      m.answers.next m.detail st = .applying .aborted)
    (hacc : acc → (Returns s F store (m.put st .moving) ↔ P)) :
    Returns s F store (m.put st .moving) ↔ (acc → P) := by
  by_cases h : acc
  · rw [hacc h]
    exact ⟨fun hp _ => hp, fun hp => hp h⟩
  refine ⟨fun _ ha => absurd ha h, fun _ => ?_⟩
  rcases hnot h with hnext | hnext
  · exact returns_waiting hnext
  rw [returns_moving, hnext]
  exact returns_abort habort

variable (s F store m) in
/-- The state that follows when a consensus is started, and none if that fails. -/
theorem trigger_call {t : Transition} {next : State} (ht : t.triggers = some next) :
    (Encodes s F m t → ∃ act, called s F store m t = ⟨store, some next, act⟩) ∧
      (¬ Encodes s F m t → called s F store m t = ⟨store, none, none⟩) := by
  have htrigger : ∀ op, (Encodes s F m t →
        ∃ act, triggerConsensus s ⟨F.db store t, F.marshal t⟩ m.detail op next store =
          ⟨store, some next, act⟩) ∧
      (¬ Encodes s F m t → triggerConsensus s ⟨F.db store t, F.marshal t⟩ m.detail op next store =
        ⟨store, none, none⟩) := by
    intro op
    unfold triggerConsensus Encodes
    cases s.isNodeInitiatingBroadcast m.detail.hashID with
    | false => exact ⟨fun _ => ⟨none, rfl⟩, fun h => absurd h (by simp)⟩
    | true =>
      cases F.marshal t with
      | false => exact ⟨fun _ => ⟨_, rfl⟩, fun h => absurd h (by simp)⟩
      | true => exact ⟨fun h => absurd (h rfl) (by simp), fun _ => rfl⟩
  cases t
  all_goals first
    | (cases ht; done)
    | (cases ht
       exact htrigger _)

theorem returns_phase1_iff : Returns s F store (m.put .waitingForPhase1 .moving) ↔
      ((m.sbac .phase1).state = .accepted → Encodes s F m .toConsensus2Triggered) := by
  refine returns_iff_of_accepted rfl ?_ fun hc => ?_
  · cases hc : (m.sbac .phase1).state <;> simp [Answers.next, answers, hc]
  have hnext : m.answers.next m.detail .waitingForPhase1 = .applying .consensus2Triggered := by
    simp [Answers.next, answers, hc]
  obtain ⟨hok, hfail⟩ := trigger_call s F store m
    (rfl : Transition.toConsensus2Triggered.triggers = _)
  by_cases henc : Encodes s F m .toConsensus2Triggered
  · obtain ⟨act, hcall⟩ := hok henc
    rw [returns_moving, hnext, returns_call rfl (by simp) hcall]
    exact ⟨fun _ => henc, fun _ => returns_applying rfl (by decide)⟩
  · have hspin := not_returns_of_call rfl (by simp) hnext (hfail henc)
    exact ⟨fun h => absurd h hspin, fun h => absurd h henc⟩

theorem returns_consensusCommit_iff : Returns s F store (m.put .waitingForConsensusCommit .moving) ↔
      (m.consensus .consensusCommit = .accepted → Creates s F store m) := by
  refine returns_iff_of_accepted rfl ?_ fun hc => ?_
  · cases hc : m.consensus .consensusCommit <;> simp [Answers.next, answers, hc]
  have hnext : m.answers.next m.detail .waitingForConsensusCommit =
      .applying .objectsCreated := by
    simp [Answers.next, answers, hc]
  rcases store.update_cases (F.db store .toObjectsCreated)
      (·.createObjects (s.outputObjectsForShard m.detail.tx).1) with
    ⟨st, hdb, hst, heq⟩ | ⟨e, heq, herr⟩
  · have hcall : called s F store m .toObjectsCreated =
        ⟨st, some (if (s.outputObjectsForShard m.detail.tx).2 then .succeeded
          else .commitObjectsBroadcasted), some (.create true)⟩ := by
      simp only [called, callTransition, toObjectsCreated, heq]
    rw [returns_moving, hnext, returns_call rfl (by simp) hcall]
    exact ⟨fun _ => ⟨hdb, st, hst⟩, fun _ => returns_applying rfl (by decide)⟩
  have hcall : called s F store m .toObjectsCreated =
      ⟨store, none, some (.create false)⟩ := by
    simp only [called, callTransition, toObjectsCreated, heq]
  have hspin := not_returns_of_call rfl (by simp) hnext hcall
  refine ⟨fun h => absurd h hspin, ?_⟩
  rintro ⟨hdb, st, hst⟩
  rw [herr hdb] at hst
  cases hst

theorem returns_commit_iff : Returns s F store (m.put .waitingForCommit .moving) ↔
      ((m.sbac .commit).state = .accepted → Encodes s F m .toConsensusCommitTriggered ∧
        (m.consensus .consensusCommit = .accepted → Creates s F store m)) := by
  refine returns_iff_of_accepted rfl ?_ fun hc => ?_
  · cases hc : (m.sbac .commit).state <;> simp [Answers.next, answers, hc]
  have hnext : m.answers.next m.detail .waitingForCommit =
      .applying .consensusCommitTriggered := by
    simp [Answers.next, answers, hc]
  obtain ⟨hok, hfail⟩ := trigger_call s F store m
    (rfl : Transition.toConsensusCommitTriggered.triggers = _)
  by_cases henc : Encodes s F m .toConsensusCommitTriggered
  · -- The machine goes on to wait for the consensus.
    obtain ⟨act, hcall⟩ := hok henc
    rw [returns_moving, hnext, returns_call rfl (by simp) hcall,
      returns_call rfl (by simp) rfl, returns_stay rfl, returns_consensusCommit_iff]
    exact ⟨fun h => ⟨henc, h⟩, fun h => h.2⟩
  · have hspin := not_returns_of_call rfl (by simp) hnext (hfail henc)
    exact ⟨fun h => absurd h hspin, fun h => absurd h.1 henc⟩

theorem returns_reject :
    Returns s F store (m.put .waitingForConsensus1 (.applying .rejectPhase1Broadcasted)) := by
  have hcall : ∃ act, called s F store m .toRejectPhase1Broadcasted =
      ⟨store, some .aborted, act⟩ := by
    show ∃ act, sendDecision s _ m.detail _ _ _ _ store = _
    unfold sendDecision
    split
    · exact ⟨none, rfl⟩
    · exact ⟨_, rfl⟩
  obtain ⟨act, hcall⟩ := hcall
  rw [returns_call rfl (by simp) hcall]
  exact returns_applying rfl (by decide)

theorem returns_checking_iff (rest : List Trace) :
    Returns s F store (m.put .waitingForConsensus1 (.checking rest)) ↔
      ((∀ t ∈ rest, s.traceUsable (F.read store t) store t = true) →
        Returns s F store (m.put .waitingForConsensus1 (.applying .objectLocked))) := by
  induction rest with
  | nil =>
    have hstep : ∀ f, (m.put .waitingForConsensus1 (.checking [])).step s f store =
        some (store, m.put .waitingForConsensus1 (.applying .objectLocked), none) := fun _ => rfl
    rw [returns_iff (by simp [put]) (hstep _)]
    simp
  | cons t rest ih =>
    rw [List.forall_mem_cons]
    by_cases hu : s.traceUsable (F.read store t) store t = true
    · have hstep : (m.put .waitingForConsensus1 (.checking (t :: rest))).step s
          (F.faults store (m.put .waitingForConsensus1 (.checking (t :: rest)))) store =
            some (store, m.put .waitingForConsensus1 (.checking rest), none) := by
        simp [step, put, Outcomes.faults, hu]
      rw [returns_iff (by simp [put]) hstep, ih]
      exact ⟨fun h hall => h hall.2, fun h hall => h ⟨hu, hall⟩⟩
    have hstep : (m.put .waitingForConsensus1 (.checking (t :: rest))).step s
        (F.faults store (m.put .waitingForConsensus1 (.checking (t :: rest)))) store =
          some (store, m.put .waitingForConsensus1 (.applying .rejectPhase1Broadcasted),
            none) := by
      simp [step, put, Outcomes.faults, hu, moveTo, transitionTable]
    rw [returns_iff (by simp [put]) hstep]
    exact ⟨fun _ hall => absurd hall.1 hu, fun _ => returns_reject⟩

theorem returns_locked_iff (st : Store) :
    Returns s F st (m.put .objectLocked (.applying .acceptPhase1Broadcasted)) ↔
      (F.marshal .toAcceptPhase1Broadcasted = false → (m.sbac .phase1).state = .accepted →
        Encodes s F m .toConsensus2Triggered) := by
  by_cases hsign : F.marshal .toAcceptPhase1Broadcasted = true
  · have hcall : called s F st m .toAcceptPhase1Broadcasted = ⟨st, some .aborted, none⟩ := by
      show sendDecision s _ m.detail _ _ _ _ st = _
      unfold sendDecision
      rw [if_pos hsign]
    -- There is no way from here to an abort; the state has no action either.
    rw [returns_call rfl (by simp) hcall, returns_stay rfl]
    refine ⟨fun _ h => absurd (hsign.symm.trans h) (by simp), fun _ => ?_⟩
    exact returns_waiting rfl
  have hcall : ∃ act, called s F st m .toAcceptPhase1Broadcasted =
      ⟨st, some .waitingForPhase1, act⟩ := by
    show ∃ act, sendDecision s _ m.detail _ _ _ _ st = _
    unfold sendDecision
    rw [if_neg hsign]
    exact ⟨_, rfl⟩
  obtain ⟨act, hcall⟩ := hcall
  rw [returns_call rfl (by simp) hcall, returns_call rfl (by simp) rfl, returns_stay rfl,
    returns_phase1_iff]
  exact ⟨fun h _ => h, fun h => h (by simpa using hsign)⟩

theorem returns_consensus1_iff : Returns s F store (m.put .waitingForConsensus1 .moving) ↔
      (GivesVote s F store m → (m.sbac .phase1).state = .accepted →
        Encodes s F m .toConsensus2Triggered) := by
  cases hc : m.consensus .consensus1 with
  | waiting =>
    have hnext : m.answers.next m.detail .waitingForConsensus1 = .idle := by
      simp [Answers.next, answers, hc]
    refine ⟨fun _ hv => ?_, fun _ => returns_waiting hnext⟩
    exact absurd (hc.symm.trans hv.accepted) (by simp)
  | rejected =>
    have hnext : m.answers.next m.detail .waitingForConsensus1 =
        .applying .rejectPhase1Broadcasted := by
      simp [Answers.next, answers, hc]
    rw [returns_moving, hnext]
    refine ⟨fun _ hv => ?_, fun _ => returns_reject⟩
    exact absurd (hc.symm.trans hv.accepted) (by simp)
  | accepted =>
    have hnext : m.answers.next m.detail .waitingForConsensus1 = .checking m.detail.tx.traces := by
      simp [Answers.next, answers, hc]
    rw [returns_moving, hnext, returns_checking_iff]
    have happlying : Returns s F store (m.put .waitingForConsensus1 (.applying .objectLocked)) ↔
          ((F.db store .toObjectLocked = false ∧
              ∃ st, store.lockObjects (s.inputObjectsForShard m.detail.tx).1 = .ok st) →
            (s.inputObjectsForShard m.detail.tx).2 = false →
            F.marshal .toAcceptPhase1Broadcasted = false → (m.sbac .phase1).state = .accepted →
              Encodes s F m .toConsensus2Triggered) := by
      rcases store.update_cases (F.db store .toObjectLocked)
          (·.lockObjects (s.inputObjectsForShard m.detail.tx).1) with
        ⟨st, hdb, hst, heq⟩ | ⟨e, heq, herr⟩
      · have hcall : called s F store m .toObjectLocked =
            ⟨st, some (if (s.inputObjectsForShard m.detail.tx).2 then .objectsDeactivated
              else .acceptPhase1Broadcasted), some (.lock true)⟩ := by
          simp only [called, callTransition, toObjectLocked, heq]
        rw [returns_call rfl (by simp) hcall]
        cases hall : (s.inputObjectsForShard m.detail.tx).2 with
        | true =>
          -- A transaction of this shard alone is settled at once.
          have hcall' : ∃ st' next act, called s F st m .toObjectDeactivated =
              ⟨st', some next, act⟩ := by
            rcases toObjectDeactivated_cases s _ m.detail st with ⟨st', _, h⟩ | ⟨_, _, h⟩
            all_goals exact ⟨_, _, _, h⟩
          obtain ⟨st', next, act, hcall'⟩ := hcall'
          rw [returns_call rfl (by simp) hcall']
          exact ⟨fun _ _ h => absurd h (by simp), fun _ => returns_applying rfl (by decide)⟩
        | false =>
          rw [if_neg (by simp), returns_locked_iff]
          exact ⟨fun h _ _ => h, fun h => h ⟨hdb, st, hst⟩ rfl⟩
      have hcall : called s F store m .toObjectLocked =
          ⟨store, some .aborted, some (.lock false)⟩ := by
        simp only [called, callTransition, toObjectLocked, heq]
      rw [returns_call rfl (by simp) hcall]
      refine ⟨fun _ hlocks => ?_, fun _ => returns_abort rfl⟩
      obtain ⟨hdb, st, hst⟩ := hlocks
      rw [herr hdb] at hst
      cases hst
    rw [happlying]
    exact ⟨fun h hv => h hv.usable hv.locks hv.shared hv.signed,
      fun h husable hlocks hshared hsigned => h ⟨hc, husable, hlocks, hshared, hsigned⟩⟩

end Spin

/-- **Exactly when `moveState` returns**: unless a call fails that its action asks for again. -/
theorem moveState_returns_iff (s : Service) (F : Outcomes) (store : Store) (m : Machine) :
    (moveState s F store m).Dom ↔ NoSpin s F store m := by
  have hput : { m with pc := .moving } = m.put m.state .moving := rfl
  show Returns s F store { m with pc := .moving } ↔ _
  rw [hput]
  cases hst : m.state with
  | waitingForConsensus1 =>
    rw [returns_consensus1_iff]
    constructor
    · intro h
      refine ⟨?_, by simp [hst], by simp [hst]⟩
      rintro (hphase | ⟨_, hv⟩)
      · exact absurd (hst.symm.trans hphase) (by simp)
      · exact h hv
    · intro h hv
      exact h.phase1 (.inr ⟨hst, hv⟩)
  | waitingForPhase1 =>
    rw [returns_phase1_iff]
    exact ⟨fun h => ⟨fun _ => h, by simp [hst], by simp [hst]⟩, fun h => h.phase1 (.inl hst)⟩
  | waitingForCommit =>
    rw [returns_commit_iff]
    constructor
    · intro h
      refine ⟨by simp [hst], fun _ hc => (h hc).1, ?_⟩
      rintro (hcommit | ⟨_, hc⟩)
      · exact absurd (hst.symm.trans hcommit) (by simp)
      · exact (h hc).2
    · intro h hc
      exact ⟨h.commit hst hc, h.create (.inr ⟨hst, hc⟩)⟩
  | waitingForConsensusCommit =>
    rw [returns_consensusCommit_iff]
    exact ⟨fun h => ⟨by simp [hst], by simp [hst], fun _ => h⟩, fun h => h.create (.inl hst)⟩
  | waitingForConsensus2 | waitingForPhase2 =>
    exact ⟨fun _ => ⟨by simp [hst], by simp [hst], by simp [hst]⟩,
      fun _ => returns_put (by simp) (by simp) rfl (by decide)⟩
  | _ =>
    exact ⟨fun _ => ⟨by simp [hst], by simp [hst], by simp [hst]⟩, fun _ => returns_waiting rfl⟩

end Machine

def outputTx : Transaction := ⟨[.mk [9] [] [] [] [⟨[], [7]⟩] [] [] [] [] []]⟩

/-- Its machine on a node that learns of it by a commit, when the shard has agreed. -/
def outputMachine : Machine :=
  { Machine.new ⟨[7], outputTx, .empty, 0⟩ .waitingForConsensusCommit with
    consensus := fun _ => .accepted }

def Outcomes.calm : Outcomes := ⟨fun _ _ => false, fun _ _ => false, fun _ => false, fun _ => false⟩

/-- **A commit whose object exists already.** `CreateObjects` fails, and `moveState` runs the same
action again, for ever. -/
theorem moveState_spins : ¬ (Machine.moveState (pairService true) .calm
      { Store.empty with values := PMap.empty.set [9, 7, 0, 0, 0, 0] [7] } outputMachine).Dom := by
  intro h
  obtain ⟨_, st, hst⟩ := Machine.returns_consensusCommit_iff.mp h rfl
  have houtputs : ((pairService true).outputObjectsForShard outputMachine.detail.tx).1 =
      [⟨[9, 7, 0, 0, 0, 0], [7], .active, []⟩] := by decide
  rw [houtputs] at hst
  exact absurd hst (by simp [Store.createObjects, Store.createObject1])

end Chainspace.Sbac
