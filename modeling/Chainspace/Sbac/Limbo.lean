/-
  Chainspace.Sbac.Limbo — where a machine comes to rest.

  When `consumeEvent` returns, a machine should be in a state that waits for an event, or have ended
  and finished its transaction; and an aborted one should have given up its locks. `applyTransition`
  stops without an error when the table has no entry for the state it has entered and the one its
  function has returned. That happens when `toObjectDeactivated` or a function that sends an accept
  vote fails; and an error of `toObjectsCreated` leaves the machine in `StateObjectsDeactivated`.
  None of these states has an action. An `UnlockObjects` that fails is logged only. Where these
  calls succeed, no machine comes to rest like that.
-/
import Chainspace.Sbac.Consume
import Chainspace.Sbac.Locks

namespace Chainspace.Sbac

open Chainspace.Lib

/-! ## §1. Rest. -/

def State.ended (st : State) : Bool := st = .aborted ∨ st = .succeeded

def Act.locks : Act → Option Bool
  | .lock true => some true
  | .unlock true | .deactivate true => some false
  | _ => none

/-- The machine that has an object locked: the last one that locked it, if no unlock or deactivation
followed. -/
def locker (s : Service) : List Record → Bytes → Option Nat
  | [], _ => none
  | r :: rs, o =>
    if o ∈ (s.inputObjectsForShard r.detail.tx).1 then
      match r.act.locks with
      | some true => some r.machine
      | some false => none
      | none => locker s rs o
    else locker s rs o

/-- **No transaction comes to rest in limbo.** -/
structure NoLimbo (s : Service) (n : Node) : Prop where
  /-- A machine at rest waits for an event, or has ended with `FinishTransaction`. -/
  rests : ∀ i m, n.machines i = some m → m.pc = .idle → m.state.hasAction = true ∨
    m.state.ended = true ∧ ∃ r ∈ n.history, r.machine = i ∧ r.act = .finish
  /-- An aborted machine has no input `LOCKED`. -/
  unlocked : ∀ i m, n.machines i = some m → m.pc = .idle → m.state = .aborted →
    ∀ o ∈ (s.inputObjectsForShard m.detail.tx).1, n.store.statuses o = some .locked →
      locker s n.history o ≠ some i

/-- The calls of a transition function that leave no way out if they fail. -/
def Succeeds (s : Service) (f : Faults) (store : Store) (m : Machine) : Transition → Prop
  | .toObjectDeactivated => f.db = false ∧
      ∃ st, store.deactivateObjects (s.inputObjectsForShard m.detail.tx).1 = .ok st
  | .toObjectsCreated => m.state = .objectsDeactivated → f.db = false ∧
      ∃ st, store.createObjects (s.outputObjectsForShard m.detail.tx).1 = .ok st
  | .toAcceptPhase1Broadcasted => f.marshal = false
  | .toAcceptPhase2Broadcasted => f.marshal = false
  | _ => True

/-- A machine that has one of its inputs `LOCKED` can unlock them. -/
def Unlocks (s : Service) (f : Faults) (n : Node) (i : Nat) (m : Machine) : Prop :=
  (∃ o ∈ (s.inputObjectsForShard m.detail.tx).1,
      n.store.statuses o = some .locked ∧ locker s n.history o = some i) →
    f.db = false ∧ ∃ st, n.store.unlockObjects (s.inputObjectsForShard m.detail.tx).1 = .ok st

/-- **The calls with no way out succeed**, and so do the unlocks of an abort. -/
def WayOut (s : Service) (n : Node) : Input → Prop
  | .step i f => ∀ m target t, n.machines i = some m → m.pc = .applying target →
      transitionTable m.state target = some t →
        Succeeds s f n.store m t ∧ (t = .toAborted → Unlocks s f n i m)
  | _ => True

/-! ## §2. The position of a machine. -/

/-- The machine is on its way to a state where it can rest. -/
def Machine.Clear (m : Machine) : Prop :=
  match m.pc with
  | .idle => m.state.hasAction = true ∨ m.state.ended = true
  | .moving => m.state.hasAction = true ∨ m.state.ended = true
  | .checking _ => m.state = .waitingForConsensus1
  | .applying target => (transitionTable m.state target).isSome = true ∨
      m.state.hasAction = true ∨ m.state.ended = true
  | .unlocked => True

section Clear
variable {s : Service} {f : Faults} {store store' : Store} {m m' : Machine} {act : Option Act}

theorem Called.next_clear {d : DetailTx} {t : Transition} {r : Applied} {next : State}
    (h : Called s f d store t r) (hne : t ≠ .toAborted) (hnext : r.next = some next)
    (hdeactivate : t = .toObjectDeactivated → next = .objectsCreated)
    (haccept : t = .toAcceptPhase1Broadcasted ∨ t = .toAcceptPhase2Broadcasted →
      f.marshal = false) :
    (transitionTable t.target next).isSome = true ∨ t.target.hasAction = true ∨
      t.target.ended = true := by
  cases h with
  | locked =>
    cases hnext
    cases (s.inputObjectsForShard d.tx).2 with
    | true | false => exact .inl rfl
  | lockFailed | deactivated =>
    cases hnext
    exact .inl rfl
  | deactivateFailed =>
    cases hnext
    exact absurd (hdeactivate rfl) (by simp)
  | created =>
    cases hnext
    cases (s.outputObjectsForShard d.tx).2 with
    | true | false => exact .inl rfl
  | createFailed | notTriggered => cases hnext
  | finished => exact .inr (.inr rfl)
  | sent t op decision shards next' _ huse | triggered t next' act _ huse =>
    cases hnext
    cases t
    all_goals first
      | (cases huse; done)
      | (cases huse
         exact .inl rfl)
  | notSent t hf huse =>
    cases hnext
    cases t
    all_goals first
      | exact absurd huse (by decide)
      | exact .inl rfl
      | exact absurd (haccept (.inl rfl)) (by simp [hf])
      | exact absurd (haccept (.inr rfl)) (by simp [hf])
  | waits t huse =>
    cases t
    all_goals first
      | exact absurd huse (by decide)
      | exact .inr (.inl rfl)
  | aborts => exact absurd rfl hne

theorem Called.failed_clear {d : DetailTx} {t : Transition} {r : Applied} {st : State}
    (h : Called s f d store t r) (hne : t ≠ .toAborted) (hnext : r.next = none)
    (hst : st ∈ t.sources) (hcreate : t = .toObjectsCreated → st ≠ .objectsDeactivated) :
    st.hasAction = true := by
  cases h with
  | createFailed =>
    simp only [Transition.sources, List.mem_cons, List.not_mem_nil, or_false] at hst
    rcases hst with hst | hst
    · exact absurd hst (hcreate rfl)
    · rw [hst]
      rfl
  | notTriggered t _ huse =>
    cases t
    all_goals first
      | exact absurd huse (by decide)
      | (simp only [Transition.sources, List.mem_cons, List.not_mem_nil, or_false] at hst
         subst hst
         rfl)
  | aborts => exact absurd rfl hne
  | _ => cases hnext

theorem Answers.next_checking {a : Answers} {d : DetailTx} {st : State} {rest : List Trace}
    (h : a.next d st = .checking rest) : st = .waitingForConsensus1 := by
  unfold Answers.next at h
  split at h
  · rfl
  all_goals first
    | cases h
    | (split at h
       all_goals exact absurd h (by simp))

theorem Machine.Clear.moveTo (h : m.state = .waitingForConsensus1) {st : State}
    (hst : (transitionTable .waitingForConsensus1 st).isSome = true) : (m.moveTo st).Clear := by
  rw [Machine.moveTo_eq (.inr (by rw [h]; exact hst))]
  unfold Machine.Clear
  split
  · exact .inl (by rw [h]; rfl)
  · exact .inl (by rw [h]; rfl)
  · exact h
  · exact .inr (.inl (by rw [h]; rfl))
  · trivial

/-- **A step leads on**, if the calls with no way out succeed. -/
theorem Machine.Clear.step (h : m.Clear) (hsteps : m.Steps s f store store' m' act)
    (hok : ∀ target t, m.pc = .applying target → transitionTable m.state target = some t →
      Succeeds s f store m t) : m'.Clear := by
  have hrest : m.pc = .idle ∨ m.pc = .moving → m.state.hasAction = true ∨ m.state.ended = true := by
    intro hpc
    unfold Machine.Clear at h
    rcases hpc with hpc | hpc
    all_goals
      rw [hpc] at h
      exact h
  have hchecking : ∀ rest, m.pc = .checking rest → m.state = .waitingForConsensus1 := by
    intro rest hpc
    unfold Machine.Clear at h
    rw [hpc] at h
    exact h
  cases hsteps with
  | consume e rest m1 hpc _ hev =>
    have hstate : m1.state = m.state := (processEvent_same hev).2.1
    have hm1 : m1.state.hasAction = true ∨ m1.state.ended = true := hstate ▸ hrest (.inl hpc)
    unfold Machine.Clear
    split
    · exact hm1
    · exact hm1
    next heq => split at heq <;> cases heq
    next => exact .inr hm1
    · trivial
  | move hpc =>
    have hm := hrest (.inr hpc)
    obtain ⟨pc, heq, hcases⟩ := m.move_cases
    rw [heq]
    rcases hcases with hpc' | ⟨rest, hpc'⟩ | ⟨target, hpc', htable⟩
    · rw [hpc']
      exact hm
    · have hnext : m.answers.next m.detail m.state = pc :=
        congrArg Machine.pc (m.move_eq.symm.trans heq)
      rw [hpc'] at hnext ⊢
      exact Answers.next_checking hnext
    · rw [hpc']
      exact .inl htable
  | checked hpc | unusable t rest hpc => exact .moveTo (hchecking _ hpc) rfl
  | check t rest hpc => exact hchecking _ hpc
  | stay target hpc ht =>
    unfold Machine.Clear at h
    rw [hpc] at h
    rcases h with h | h
    · rw [ht] at h
      cases h
    · exact h
  | unlock => trivial
  | failed target t hpc ht hne hnext =>
    have hsource := (transitionTable_iff.mp ht).1
    refine .inl ((callTransition_called s f m.detail store t).failed_clear hne hnext hsource ?_)
    intro heq hst
    subst heq
    obtain ⟨hdb, st, hst⟩ := hok target _ hpc ht hst
    rcases toObjectsCreated_cases s f m.detail store with ⟨st', _, heq⟩ | ⟨e, herr, _⟩
    · have hnext : (toObjectsCreated s f m.detail store).next = none := hnext
      rw [heq] at hnext
      cases hnext
    · rw [herr hdb] at hst
      cases hst
  | applied target next t hpc ht hne hnext =>
    have htarget := (transitionTable_iff.mp ht).2
    rw [htarget]
    refine (callTransition_called s f m.detail store t).next_clear hne hnext ?_ ?_
    · intro heq
      subst heq
      obtain ⟨hdb, st, hst⟩ := hok target _ hpc ht
      rcases toObjectDeactivated_cases s f m.detail store with ⟨st', _, heq⟩ | ⟨e, herr, _⟩
      · have hnext : (toObjectDeactivated s f m.detail store).next = some next := hnext
        rw [heq] at hnext
        injection hnext with hnext
        exact hnext.symm
      · rw [herr hdb] at hst
        cases hst
    · rintro (heq | heq)
      all_goals
        subst heq
        exact hok target _ hpc ht
  | finished => exact .inr (.inr rfl)

theorem Machine.Steps.finishes (hclear : m.Clear) (h : m.Steps s f store store' m' act)
    (hend : m'.state.ended = true) : act = some .finish ∨ m.state.ended = true := by
  have hchecking : ∀ rest st, m.pc = .checking rest →
      (transitionTable .waitingForConsensus1 st).isSome = true → (m.moveTo st).state = m.state := by
    intro rest st hpc hst
    unfold Machine.Clear at hclear
    rw [hpc] at hclear
    rw [Machine.moveTo_eq (.inr (by rw [hclear]; exact hst))]
  cases h with
  | consume e rest m1 _ _ hev =>
    have hstate : m1.state = m.state := (processEvent_same hev).2.1
    exact .inr (hstate ▸ hend)
  | move =>
    rw [move_eq] at hend
    exact .inr hend
  | checked hpc =>
    rw [hchecking _ .objectLocked hpc rfl] at hend
    exact .inr hend
  | unusable t rest hpc =>
    rw [hchecking _ .rejectPhase1Broadcasted hpc rfl] at hend
    exact .inr hend
  | applied target next t _ ht hne =>
    have htarget := (transitionTable_iff.mp ht).2
    have hend : t.target.ended = true := htarget ▸ hend
    cases t
    all_goals first
      | exact absurd rfl hne
      | exact absurd hend (by decide)
      | exact .inl rfl
  | finished => exact .inl rfl
  | _ => exact .inr hend

/-- A machine that has aborted has tried to unlock its inputs, and locks none. -/
theorem Machine.Steps.aborts (hclear : m.Clear) (h : m.Steps s f store store' m' act)
    (hm' : m'.pc = .unlocked ∨ m'.state = .aborted) :
    (∃ target, m.pc = .applying target ∧ transitionTable m.state target = some .toAborted ∧
        act = some (unlockInputs s f m.detail store).2) ∨
      (m.pc = .unlocked ∨ m.state = .aborted) ∧ act.bind Act.locks = none := by
  have hchecking : ∀ rest st, m.pc = .checking rest →
      (transitionTable .waitingForConsensus1 st).isSome = true →
      ¬ ((m.moveTo st).pc = .unlocked ∨ (m.moveTo st).state = .aborted) := by
    intro rest st hpc hst hor
    unfold Machine.Clear at hclear
    rw [hpc] at hclear
    rw [Machine.moveTo_eq (.inr (by rw [hclear]; exact hst))] at hor
    rcases hor with hor | hor
    · split at hor
      all_goals cases hor
    · exact absurd (hclear.symm.trans hor) (by simp)
  cases h with
  | consume e rest m1 _ _ hev =>
    have hstate : m1.state = m.state := (processEvent_same hev).2.1
    rcases hm' with hm' | hm'
    · split at hm'
      all_goals cases hm'
    · exact .inr ⟨.inr (hstate ▸ hm'), rfl⟩
  | move =>
    obtain ⟨pc, heq, hcases⟩ := m.move_cases
    rw [heq] at hm'
    rcases hm' with hm' | hm'
    · rcases hcases with hpc' | ⟨rest, hpc'⟩ | ⟨target, hpc', _⟩
      all_goals exact absurd (hpc'.symm.trans hm') (by simp)
    · exact .inr ⟨.inr hm', rfl⟩
  | checked hpc | unusable t rest hpc => exact absurd hm' (hchecking _ _ hpc rfl)
  | check | stay => exact .inr ⟨.inr (hm'.resolve_left (by simp)), rfl⟩
  | unlock target hpc ht => exact .inl ⟨target, hpc, ht, rfl⟩
  | failed target t _ _ _ hnext =>
    refine .inr ⟨.inr (hm'.resolve_left (by simp)), ?_⟩
    have hcall := callTransition_called s f m.detail store t
    generalize callTransition s f m.detail store t = r at hcall hnext
    cases hcall with
    | createFailed | notTriggered | aborts => rfl
    | _ => cases hnext
  | applied target next t _ ht hne =>
    have htarget := (transitionTable_iff.mp ht).2
    have hm' : t.target = .aborted := htarget ▸ hm'.resolve_left (by simp)
    cases t
    all_goals first
      | exact absurd rfl hne
      | exact absurd hm' (by decide)
  | finished hpc => exact .inr ⟨.inl hpc, rfl⟩

end Clear

/-! ## §3. Locks. -/

section Lockers
variable {s : Service} {hs : List Record} {o : Bytes}

theorem locker_neutral {rs : List Record} (h : ∀ r ∈ rs, r.act.locks = none) :
    locker s (rs ++ hs) o = locker s hs o := by
  induction rs with
  | nil => rfl
  | cons r rs ih =>
    have hr := h r List.mem_cons_self
    rw [List.cons_append, locker, hr, ih (fun x hx => h x (List.mem_cons_of_mem r hx)), ite_self]

theorem locker_act (i : Nat) (d : DetailTx) (act : Option Act) :
    locker s ((act.toList.map fun a => ⟨i, d, a⟩) ++ hs) o =
      if o ∈ (s.inputObjectsForShard d.tx).1 then
        match act.bind Act.locks with
        | some true => some i
        | some false => none
        | none => locker s hs o
      else locker s hs o := by
  cases act with
  | none => exact (ite_self _).symm
  | some => rfl

theorem locker_other {i j : Nat} (hne : i ≠ j) (d : DetailTx) (act : Option Act)
    (h : locker s ((act.toList.map fun a => ⟨i, d, a⟩) ++ hs) o = some j) :
    locker s hs o = some j := by
  rw [locker_act] at h
  split at h
  · split at h
    · injection h with h
      exact absurd h hne
    · cases h
    · exact h
  · exact h

end Lockers

/-! ## §4. Runs. -/

/-- The invariant of a run. -/
structure LimboInv (s : Service) (n : Node) : Prop where
  clear : ∀ i m, n.machines i = some m → m.Clear
  finished : ∀ i m, n.machines i = some m → m.state.ended = true →
    ∃ r ∈ n.history, r.machine = i ∧ r.act = .finish
  locked : ∀ o i, locker s n.history o = some i → n.store.statuses o = some .locked
  unlocked : ∀ i m, n.machines i = some m → m.pc = .unlocked ∨ m.state = .aborted →
    ∀ o ∈ (s.inputObjectsForShard m.detail.tx).1, locker s n.history o ≠ some i

section Run
variable {s : Service} {n n' : Node}

theorem LimboInv.locked_machine (hn : LimboInv s n) {i : Nat} {f : Faults} {m m' : Machine}
    {store : Store} {act : Option Act} (h : m.Steps s f n.store store m' act) {o : Bytes} {j : Nat}
    (ho : locker s ((act.toList.map fun a => ⟨i, m.detail, a⟩) ++ n.history) o = some j) :
    store.statuses o = some .locked := by
  rw [locker_act] at ho
  cases heff : h.effect with
  | quiet act finished hact =>
    have hnone : act.bind Act.locks = none := by
      cases act with
      | none => rfl
      | some a =>
        have hw := hact a rfl
        cases a with
        | lock ok | unlock ok | deactivate ok =>
          cases ok with
          | false => rfl
          | true => exact absurd hw (by simp [Act.writes])
        | _ => rfl
    rw [hnone, ite_self] at ho
    exact hn.locked o j ho
  | lock st hst =>
    obtain ⟨_, _, heq⟩ := Store.lockObjects_ok hst
    rw [heq]
    show (if o ∈ _ then some ObjectStatus.locked else n.store.statuses o) = _
    by_cases hin : o ∈ (s.inputObjectsForShard m.detail.tx).1
    · rw [if_pos hin]
    · rw [if_neg hin] at ho ⊢
      exact hn.locked o j ho
  | unlock st hst =>
    obtain ⟨_, heq⟩ := Store.unlockObjects_ok hst
    rw [heq]
    show (if o ∈ _ then some ObjectStatus.active else n.store.statuses o) = _
    by_cases hin : o ∈ (s.inputObjectsForShard m.detail.tx).1
    · rw [if_pos hin] at ho
      exact absurd ho (by simp [Act.locks])
    · rw [if_neg hin] at ho ⊢
      exact hn.locked o j ho
  | deactivate st hst =>
    obtain ⟨_, heq⟩ := Store.deactivateObjects_ok hst
    rw [heq]
    show (if o ∈ _ then some ObjectStatus.inactive else n.store.statuses o) = _
    by_cases hin : o ∈ (s.inputObjectsForShard m.detail.tx).1
    · rw [if_pos hin] at ho
      exact absurd ho (by simp [Act.locks])
    · rw [if_neg hin] at ho ⊢
      exact hn.locked o j ho
  | create st hst =>
    have hold : locker s n.history o = some j := by
      by_cases hin : o ∈ (s.inputObjectsForShard m.detail.tx).1
      · rw [if_pos hin] at ho
        exact ho
      · rw [if_neg hin] at ho
        exact ho
    exact (Store.createObjects_ok hst).status (hn.locked o j hold)

theorem LimboInv.unlocked_machine (hn : LimboInv s n) {i : Nat} {f : Faults} {m m' : Machine}
    {store : Store} {act : Option Act} (hm : n.machines i = some m)
    (hok : WayOut s n (.step i f)) (h : m.Steps s f n.store store m' act)
    (hm' : m'.pc = .unlocked ∨ m'.state = .aborted) {o : Bytes}
    (ho : o ∈ (s.inputObjectsForShard m.detail.tx).1) :
    locker s ((act.toList.map fun a => ⟨i, m.detail, a⟩) ++ n.history) o ≠ some i := by
  rw [locker_act, if_pos ho]
  rcases h.aborts (hn.clear i m hm) hm' with ⟨target, hpc, ht, hact⟩ | ⟨hold, hact⟩
  · rw [hact]
    rcases unlockInputs_cases s f m.detail n.store with ⟨st, _, heq⟩ | heq
    · rw [heq]
      simp [Act.locks]
    -- The unlock failed, so the machine had no input locked.
    intro hself
    have hself : locker s n.history o = some i := by
      rw [heq] at hself
      exact hself
    have hunlocks := (hok m target _ hm hpc ht).2 rfl
    obtain ⟨hdb, st, hst⟩ := hunlocks ⟨o, ho, hn.locked o i hself, hself⟩
    have hsucceeds : (unlockInputs s f m.detail n.store).2 = .unlock true := by
      simp [unlockInputs, Store.update, hdb, hst]
    rw [heq] at hsucceeds
    cases hsucceeds
  · rw [hact]
    exact hn.unlocked i m hm hold o ho

theorem limboInv_new (store : Store) : LimboInv s (.new store) where
  clear := by simp [Node.new]
  finished := by simp [Node.new]
  locked := by simp [Node.new, locker]
  unlocked := by simp [Node.new]

theorem LimboInv.step (hn : LimboInv s n) {input : Input} (hok : WayOut s n input)
    (h : n.step s input = some n') : LimboInv s n' := by
  rcases (Node.step_cases h).around_or_machine with
    ha | ⟨i, f, m, m', store, act, hinput, hm, hsteps, heq⟩
  · obtain ⟨rs, hhist, hrs⟩ := ha.history
    have hlocker : ∀ o, locker s n'.history o = locker s n.history o := by
      intro o
      rw [hhist]
      refine locker_neutral (fun r hr => ?_)
      rcases hrs r hr with ⟨data, hact⟩ | ⟨initial, hact⟩
      all_goals
        rw [hact]
        rfl
    -- A new machine waits for its first event.
    have hwaits : ∀ d initial, n.creates s input = some (d, initial) →
        initial.hasAction = true ∧ initial.ended = false := by
      intro d initial hc
      rcases Input.creates_initial (Node.creates_iff.mp hc).1 with hi | hi
      all_goals exact hi ▸ ⟨rfl, rfl⟩
    refine ⟨?_, ?_, ?_, ?_⟩
    · intro i m' hm'
      rcases ha.machines i m' hm' with ⟨m, events, hm, heq⟩ | ⟨d, initial, hc, _, heq, _⟩
      · subst heq
        exact hn.clear i m hm
      · subst heq
        exact .inl (hwaits d initial hc).1
    · intro i m' hm' hend
      rcases ha.machines i m' hm' with ⟨m, events, hm, heq⟩ | ⟨d, initial, hc, _, heq, _⟩
      · subst heq
        obtain ⟨r, hr, hfin⟩ := hn.finished i m hm hend
        exact ⟨r, (Node.step_cases h).mem_history hr, hfin⟩
      · subst heq
        exact absurd (hend.symm.trans (hwaits d initial hc).2) (by simp)
    · intro o i ho
      exact ha.statuses o _ (hn.locked o i ((hlocker o).symm.trans ho))
    intro i m' hm' hab o ho
    rw [hlocker]
    rcases ha.machines i m' hm' with ⟨m, events, hm, heq⟩ | ⟨d, initial, hc, _, heq, _⟩
    · subst heq
      exact hn.unlocked i m hm hab o ho
    subst heq
    rcases hab with hab | hab
    · exact absurd hab (by simp [Machine.new])
    · have hab : initial = .aborted := hab
      exact absurd (hab ▸ (hwaits d initial hc).2) (by decide)
  subst hinput heq
  refine ⟨?_, ?_, fun o j ho => hn.locked_machine hsteps ho, ?_⟩
  · intro j mj hmj
    rcases PMap.of_set hmj with ⟨_, hmj⟩ | ⟨_, hmj⟩
    · rw [← hmj]
      exact (hn.clear i m hm).step hsteps (fun target t hpc ht => (hok m target t hm hpc ht).1)
    · exact hn.clear j mj hmj
  · intro j mj hmj hend
    rcases PMap.of_set hmj with ⟨hji, hmj⟩ | ⟨_, hmj⟩
    · rw [← hmj] at hend
      rcases hsteps.finishes (hn.clear i m hm) hend with hact | hend
      · rw [hact, hji]
        exact ⟨_, List.mem_append_left _ List.mem_cons_self, rfl, rfl⟩
      · obtain ⟨r, hr, hfin⟩ := hn.finished i m hm hend
        exact ⟨r, List.mem_append_right _ hr, hji ▸ hfin⟩
    · obtain ⟨r, hr, hfin⟩ := hn.finished j mj hmj hend
      exact ⟨r, List.mem_append_right _ hr, hfin⟩
  intro j mj hmj hab o ho
  rcases PMap.of_set hmj with ⟨hji, heq⟩ | ⟨hji, hmj⟩
  · subst hji heq
    rw [hsteps.detail] at ho
    exact hn.unlocked_machine hm hok hsteps hab ho
  · intro hj
    exact hn.unlocked j mj hmj hab o ho (locker_other (Ne.symm hji) m.detail act hj)

end Run

/-- **No transaction comes to rest in limbo** where the calls with no way out succeed. -/
theorem rest_no_limbo {s : Service} {store : Store} {n : Node}
    (hrun : NodeRun s (WayOut s) store n) : NoLimbo s n := by
  have hinv : LimboInv s n := by
    induction hrun with
    | start => exact limboInv_new store
    | step _ hok h ih => exact ih.step hok h
  constructor
  · intro i m hm hpc
    have hclear := hinv.clear i m hm
    unfold Machine.Clear at hclear
    rw [hpc] at hclear
    rcases hclear with haction | hend
    · exact .inl haction
    · exact .inr ⟨hend, hinv.finished i m hm hend⟩
  · intro i m hm _ hab o ho _
    exact hinv.unlocked i m hm (.inr hab) o ho

/-! ## §5. A transaction of two shards, and one of a single shard. -/

/-- A test that is enough for `WayOut`: the calls of the next transition succeed. -/
def Node.smooth (s : Service) (n : Node) : Input → Bool
  | .step i f =>
    match n.machines i with
    | none => true
    | some m =>
      match m.pc with
      | .applying target =>
        match transitionTable m.state target with
        | some .toObjectDeactivated => !f.db &&
            (n.store.deactivateObjects (s.inputObjectsForShard m.detail.tx).1).toOption.isSome
        | some .toObjectsCreated => !f.db &&
            (n.store.createObjects (s.outputObjectsForShard m.detail.tx).1).toOption.isSome
        | some .toAborted => !f.db &&
            (n.store.unlockObjects (s.inputObjectsForShard m.detail.tx).1).toOption.isSome
        | _ => !f.marshal
      | _ => true
  | _ => true

theorem exists_ok_of_isSome {α β : Type} {x : Except α β} (h : x.toOption.isSome = true) :
    ∃ b, x = .ok b := by
  cases x with
  | ok b => exact ⟨b, rfl⟩
  | error => exact absurd h (by simp [Except.toOption])

theorem WayOut.of_smooth {s : Service} {n : Node} {input : Input}
    (h : n.smooth s input = true) : WayOut s n input := by
  cases input with
  | step i f =>
    intro m target t hm hpc ht
    simp only [Node.smooth, hm, hpc, ht] at h
    cases t with
    | toObjectDeactivated =>
      simp only [Bool.and_eq_true, Bool.not_eq_true'] at h
      exact ⟨⟨h.1, exists_ok_of_isSome h.2⟩, by simp⟩
    | toObjectsCreated =>
      simp only [Bool.and_eq_true, Bool.not_eq_true'] at h
      exact ⟨fun _ => ⟨h.1, exists_ok_of_isSome h.2⟩, by simp⟩
    | toAborted =>
      simp only [Bool.and_eq_true, Bool.not_eq_true'] at h
      exact ⟨trivial, fun _ _ => ⟨h.1, exists_ok_of_isSome h.2⟩⟩
    | toAcceptPhase1Broadcasted | toAcceptPhase2Broadcasted =>
      have hsigned : f.marshal = false := by simpa using h
      exact ⟨hsigned, by simp⟩
    | _ => exact ⟨trivial, by simp⟩
  | _ => trivial

def Machine.idle (m : Machine) : Bool :=
  match m.pc with
  | .idle => true
  | _ => false

theorem Machine.pc_of_idle {m : Machine} (h : m.idle = true) : m.pc = .idle := by
  unfold Machine.idle at h
  split at h
  next hpc => exact hpc
  · cases h

/-- What the runs below look at: where machine 0 stands, and who has locked object `[1]`. -/
def Node.restView (n : Node) : Option (State × Bool) × Option ObjectStatus × Option Nat :=
  ((n.machines 0).map fun m => (m.state, m.idle), n.store.statuses [1],
    locker (pairService true) n.history [1])

/-- `pairTx` locks object `[1]`, the other shard rejects it, and its machine aborts; `f` fails when
it unlocks the object. -/
def refusedInputs (f : Faults) : List Input :=
  [.createObject [1] ⟨false, false⟩] ++ agreedInputs 0 pairTx 9 ++
    [.message ⟨.phase1, .reject, txIDOf (fun data => data) pairTx, pairTx, .empty, [1], 2⟩,
      .dispatch false, .step 0 ⟨false, false⟩, .step 0 ⟨false, false⟩, .step 0 f] ++
    List.replicate 3 (.step 0 ⟨false, false⟩)

/-- When nothing fails, the object is `ACTIVE` again. -/
theorem rest_no_limbo_refused :
    ∃ n, NodeRun (pairService true) (WayOut (pairService true)) .empty n ∧
      n.restView = (some (.aborted, true), some .active, none) ∧ NoLimbo (pairService true) n := by
  have hview : ((Node.new .empty).stepWhile (pairService true) (Node.smooth (pairService true))
      (refusedInputs ⟨false, false⟩)).map Node.restView =
        some (some (.aborted, true), some .active, none) := by decide +kernel
  obtain ⟨n, hn, hview⟩ := Option.map_eq_some_iff.mp hview
  have hrun := NodeRun.stepWhile .start (fun n input _ => WayOut.of_smooth) hn
  exact ⟨n, hrun, hview, rest_no_limbo hrun⟩

/-- `rivalTx` has its input in one shard; `DeactivateObjects` fails. -/
def stuckInputs : List Input :=
  [.createObject [1] ⟨false, false⟩] ++ agreedInputs 0 rivalTx 5 ++ [.step 0 ⟨true, false⟩] ++
    List.replicate 2 (.step 0 ⟨false, false⟩)

/-- **Two ways into limbo.** A machine whose `DeactivateObjects` fails rests in
`StateObjectsDeactivated`, which has no action; one whose `UnlockObjects` fails ends with its input
`LOCKED`. -/
theorem rest_in_limbo :
    (∃ n m, NodeRun (pairService true) (fun _ _ => True) .empty n ∧ n.machines 0 = some m ∧
        m.pc = .idle ∧ m.state = .objectsDeactivated ∧ ¬ NoLimbo (pairService true) n) ∧
      ∃ n m, NodeRun (pairService true) (fun _ _ => True) .empty n ∧ n.machines 0 = some m ∧
        m.pc = .idle ∧ m.state = .aborted ∧ n.store.statuses [1] = some .locked ∧
        locker (pairService true) n.history [1] = some 0 := by
  constructor
  · have hview : ((Node.new .empty).stepAll (pairService true) stuckInputs).map Node.restView =
        some (some (.objectsDeactivated, true), some .locked, some 0) := by decide +kernel
    obtain ⟨n, hn, hview⟩ := Option.map_eq_some_iff.mp hview
    injection hview with hmachine _
    obtain ⟨m, hm, hmachine⟩ := Option.map_eq_some_iff.mp hmachine
    injection hmachine with hstate hidle
    have hpc := Machine.pc_of_idle hidle
    refine ⟨n, m, NodeRun.stepAll .start (fun _ _ _ => trivial) hn, hm, hpc, hstate, ?_⟩
    intro h
    rcases h.rests 0 m hm hpc with haction | ⟨hend, _⟩
    · rw [hstate] at haction
      exact absurd haction (by decide)
    · rw [hstate] at hend
      exact absurd hend (by decide)
  have hview : ((Node.new .empty).stepAll (pairService true)
      (refusedInputs ⟨true, false⟩)).map Node.restView =
        some (some (.aborted, true), some .locked, some 0) := by decide +kernel
  obtain ⟨n, hn, hview⟩ := Option.map_eq_some_iff.mp hview
  injection hview with hmachine hobject
  injection hobject with hstatus hlocker
  obtain ⟨m, hm, hmachine⟩ := Option.map_eq_some_iff.mp hmachine
  injection hmachine with hstate hidle
  exact ⟨n, m, NodeRun.stepAll .start (fun _ _ _ => trivial) hn, hm, Machine.pc_of_idle hidle,
    hstate, hstatus, hlocker⟩

end Chainspace.Sbac
