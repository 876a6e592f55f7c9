/-
  Chainspace.Sbac.Locks — are the locks of a node exclusive and owned?

  Not in general: the store keeps a status and no owner, and every abort unlocks the inputs of its
  transaction, also that of a machine which failed to lock them or was refused before. If a machine
  that holds no lock aborts only when there is nothing for it to unlock, an object stays `LOCKED`
  from the lock of a machine to that machine's own deactivation or abort. Who holds a lock is read
  off the history: the last lock, unlock or deactivation of a machine is a lock that succeeded.
-/
import Chainspace.Sbac.Node

namespace Chainspace.Sbac

open Chainspace.Lib

/-! ## §1. Who holds a lock. -/

/-- What an act says about the lock of its machine: taken, given up, or nothing. -/
def Act.holds : Act → Option Bool
  | .lock true => some true
  | .unlock _ | .deactivate _ => some false
  | _ => none

def held : List Record → Nat → Option DetailTx
  | [], _ => none
  | r :: rs, i =>
    if r.machine = i then
      match r.act.holds with
      | some true => some r.detail
      | some false => none
      | none => held rs i
    else held rs i

theorem held_cons (r : Record) (rs : List Record) (i : Nat) : held (r :: rs) i =
      if r.machine = i then
        match r.act.holds with
        | some true => some r.detail
        | some false => none
        | none => held rs i
      else held rs i := rfl

theorem held_neutral {rs hs : List Record} (h : ∀ r ∈ rs, r.act.holds = none) (i : Nat) :
    held (rs ++ hs) i = held hs i := by
  induction rs with
  | nil => rfl
  | cons r rs ih =>
    have hr := h r List.mem_cons_self
    rw [List.cons_append, held_cons, hr, ih (fun x hx => h x (List.mem_cons_of_mem r hx)), ite_self]

theorem held_other {hs : List Record} {i j : Nat} (hne : i ≠ j) (d : DetailTx) (act : Option Act) :
    held ((act.toList.map fun a => ⟨i, d, a⟩) ++ hs) j = held hs j := by
  cases act with
  | none => rfl
  | some a =>
    show held (⟨i, d, a⟩ :: hs) j = held hs j
    rw [held_cons, if_neg hne]

theorem held_self (hs : List Record) (i : Nat) (d : DetailTx) (act : Option Act) :
    held ((act.toList.map fun a => ⟨i, d, a⟩) ++ hs) i =
      match act.bind Act.holds with
      | some true => some d
      | some false => none
      | none => held hs i := by
  cases act with
  | none => rfl
  | some a =>
    show held (⟨i, d, a⟩ :: hs) i = _
    rw [held_cons, if_pos rfl]
    rfl

/-- The states a machine passes with its lock, after `StateObjectLocked`. -/
def State.holding : State → Bool
  | .acceptPhase1Broadcasted | .waitingForPhase1 | .consensus2Triggered | .waitingForConsensus2
  | .acceptPhase2Broadcasted | .rejectPhase2Broadcasted | .waitingForPhase2 => true
  | _ => false

/-- The machine has locked its inputs, and not given them up. -/
def Machine.holding (m : Machine) : Bool :=
  match m.pc with
  | .unlocked => false
  | .applying target => m.state.holding ||
      (m.state = .objectLocked &&
        (target = .objectsDeactivated || target = .acceptPhase1Broadcasted))
  | _ => m.state.holding

section Holding
variable {s : Service} {f : Faults} {store store' : Store} {m m' : Machine} {act : Option Act}

theorem Machine.holding_of_state (hpc : m.pc ≠ .unlocked) (h : m.state.holding = true) :
    m.holding = true := by
  unfold Machine.holding
  split
  next heq => exact absurd heq hpc
  · simp [h]
  · exact h

theorem Machine.new_holding {input : Input} {detail : DetailTx} {initial : State}
    (h : input.creates s = some (detail, initial)) :
    (Machine.new detail initial).holding = false := by
  rcases Input.creates_initial h with hi | hi
  all_goals
    rw [hi]
    rfl

theorem Transition.holding_source {t : Transition}
    (ht : t.sends.isSome = true ∨ t.triggers.isSome = true ∨ t.waits = true)
    (htarget : t.target.holding = true) {a : State} (ha : a ∈ t.sources) :
    a.holding = true ∨ a = .objectLocked ∧ t.target = .acceptPhase1Broadcasted := by
  cases t
  all_goals first
    | exact absurd ht (by decide)
    | exact absurd htarget (by decide)
    | (simp only [Transition.sources, List.mem_cons, List.not_mem_nil, or_false] at ha
       subst ha
       first
         | exact .inl rfl
         | exact .inr ⟨rfl, rfl⟩)

theorem bind_holds_of_propose (hact : ∀ a ∈ act, ∃ data, a = .propose data) :
    act.bind Act.holds = none := by
  cases act with
  | none => rfl
  | some a =>
    obtain ⟨data, hdata⟩ := hact a rfl
    rw [hdata]
    rfl

/-- **A machine comes to hold a lock only by locking**, until it unlocks or deactivates. -/
theorem Machine.Steps.holding (h : m.Steps s f store store' m' act) (hm' : m'.holding = true) :
    act = some (.lock true) ∨ m.holding = true ∧ act.bind Act.holds = none := by
  -- Where only the position changes, the state decides.
  have hstay : ∀ pc, pc ≠ .unlocked → m.pc ≠ .unlocked →
      (∀ target, pc = .applying target → m.state ≠ .objectLocked) →
      ({ m with pc := pc } : Machine).holding = true → m.holding = true := by
    intro pc _ hm hne hh
    apply holding_of_state hm
    unfold Machine.holding at hh
    split at hh
    · cases hh
    next target heq =>
      have hne := hne target heq
      simpa [hne] using hh
    · exact hh
  cases h with
  | consume e rest m1 hpc _ h =>
    refine .inr ⟨?_, rfl⟩
    have hstate : m1.state = m.state := by
      rcases processEvent_cases h with h | ⟨_, _, _, _, _, h⟩ | ⟨_, _, _, _, _, h⟩ <;> rw [h]
    apply holding_of_state (by rw [hpc]; simp)
    unfold Machine.holding at hm'
    rw [← hstate]
    by_cases hend : m.state = .succeeded ∨ m.state = .aborted
    all_goals simpa [hend] using hm'
  | move hpc =>
    obtain ⟨pc, heq, hcases⟩ := m.move_cases
    rw [heq] at hm'
    refine .inr ⟨hstay pc ?_ (by rw [hpc]; simp) ?_ hm', rfl⟩
    · rcases hcases with h | ⟨rest, h⟩ | ⟨target, h, _⟩ <;> rw [h] <;> simp
    intro target htarget hlocked
    -- `StateObjectLocked` has no action.
    have hmove : m.move = { m with pc := .idle } := by simp [Machine.move, hlocked]
    have hidle : Pc.idle = pc := congrArg Machine.pc (hmove.symm.trans heq)
    rw [← hidle] at htarget
    cases htarget
  | checked hpc | unusable t rest hpc =>
    refine .inr ⟨?_, rfl⟩
    apply holding_of_state (by rw [hpc]; simp)
    unfold Machine.moveTo at hm'
    split at hm'
    · exact hm'
    split at hm'
    · simpa [Machine.holding] using hm'
    · exact absurd hm' (by simp [Machine.holding, State.holding])
  | check t rest hpc | stay target hpc =>
    refine .inr ⟨?_, rfl⟩
    apply holding_of_state (by rw [hpc]; simp)
    exact hm'
  | unlock => exact absurd hm' (by simp [Machine.holding])
  | failed target t hpc _ _ hnext =>
    refine .inr ⟨holding_of_state (by rw [hpc]; simp) hm', ?_⟩
    have hcall := callTransition_called s f m.detail store t
    generalize callTransition s f m.detail store t = r at hcall hnext
    cases hcall with
    | lockFailed | deactivated | deactivateFailed | locked => cases hnext
    | triggered t next act hact => exact bind_holds_of_propose hact
    | _ => rfl
  | applied target next t hpc ht hne hnext =>
    obtain ⟨hsource, htarget⟩ := transitionTable_iff.mp ht
    have hcall := callTransition_called s f m.detail store t
    generalize callTransition s f m.detail store t = r at hcall hnext
    -- The functions that do not call the store.
    have hother : t.sends.isSome = true ∨ t.triggers.isSome = true ∨ t.waits = true →
        m.holding = true := by
      intro huse
      have hnot : target ≠ .objectLocked := by
        rw [htarget]
        intro h
        cases t <;> first | exact absurd h (by decide) | exact absurd huse (by decide)
      have htrue : t.target.holding = true := by
        rw [← htarget]
        simpa [Machine.holding, hnot] using hm'
      rcases Transition.holding_source huse htrue hsource with h | ⟨h, haccept⟩
      · exact holding_of_state (by rw [hpc]; simp) h
      unfold Machine.holding
      rw [hpc, h, htarget, haccept]
      rfl
    cases hcall with
    | locked => exact .inl rfl
    | lockFailed =>
      injection hnext with hnext
      subst hnext htarget
      exact absurd hm' (by simp [Machine.holding, State.holding, Transition.target])
    | deactivated | deactivateFailed | created | finished =>
      subst htarget
      exact absurd hm' (by simp [Machine.holding, State.holding, Transition.target])
    | createFailed | notTriggered => cases hnext
    | sent t op decision shards next _ huse =>
      exact .inr ⟨hother (.inl (by rw [huse]; rfl)), rfl⟩
    | notSent t _ huse => exact .inr ⟨hother (.inl huse), rfl⟩
    | triggered t next act hact huse =>
      refine .inr ⟨hother (.inr (.inl (by rw [huse]; rfl))), ?_⟩
      exact bind_holds_of_propose hact
    | waits t huse => exact .inr ⟨hother (.inr (.inr huse)), rfl⟩
    | aborts => exact absurd rfl hne
  | finished => exact absurd hm' (by simp [Machine.holding, State.holding])

theorem Machine.Steps.holding_of_deactivate (h : m.Steps s f store store' m' act)
    (hact : act = some (.deactivate true)) : m.holding = true := by
  obtain ⟨target, hpc, ht⟩ := h.transition hact rfl
  obtain ⟨hsource, htarget⟩ := transitionTable_iff.mp ht
  simp only [Transition.sources, List.mem_cons, List.not_mem_nil, or_false] at hsource
  unfold Machine.holding
  rw [hpc, htarget]
  rcases hsource with h | h
  all_goals
    rw [h]
    rfl

end Holding

/-! ## §2. Exclusive and owned. -/

/-- **Locks are exclusive and owned**: while a machine holds its lock its inputs are `LOCKED`, and
no other machine holds a lock on them. -/
structure LocksOwned (s : Service) (n : Node) : Prop where
  locked : ∀ i d, held n.history i = some d →
    ∀ o ∈ (s.inputObjectsForShard d.tx).1, n.store.statuses o = some .locked
  exclusive : ∀ i j d e, i ≠ j → held n.history i = some d → held n.history j = some e →
    ∀ o ∈ (s.inputObjectsForShard d.tx).1, o ∉ (s.inputObjectsForShard e.tx).1

/-- A machine that is about to abort holds its lock, or its abort unlocks nothing: no input is
`LOCKED`, or one can not be unlocked. -/
def SafeAbort (s : Service) (n : Node) : Input → Prop
  | .step i _ => ∀ m target, n.machines i = some m → m.pc = .applying target →
      transitionTable m.state target = some .toAborted →
      held n.history i = some m.detail ∨
        (∀ o ∈ (s.inputObjectsForShard m.detail.tx).1, n.store.statuses o ≠ some .locked) ∨
        ∃ o ∈ (s.inputObjectsForShard m.detail.tx).1,
          n.store.statuses o ≠ some .locked ∧ n.store.statuses o ≠ some .active
  | _ => True

/-- The invariant behind it: the position of a machine agrees with the history. -/
structure LockInv (s : Service) (n : Node) : Prop extends LocksOwned s n where
  owner : ∀ i m, n.machines i = some m → m.holding = true → held n.history i = some m.detail
  distinct : ∀ i d, held n.history i = some d → (s.inputObjectsForShard d.tx).1.Nodup

section Step
variable {s : Service} {n n' : Node}

theorem LocksOwned.mono (hn : LocksOwned s n)
    (hheld : ∀ i d, held n'.history i = some d → held n.history i = some d ∧
      ∀ o ∈ (s.inputObjectsForShard d.tx).1, n.store.statuses o = some .locked →
        n'.store.statuses o = some .locked) : LocksOwned s n' where
  locked i d hi o ho := (hheld i d hi).2 o ho (hn.locked i d (hheld i d hi).1 o ho)
  exclusive i j d e hij hi hj := hn.exclusive i j d e hij (hheld i d hi).1 (hheld j e hj).1

variable {act : Option Act} {i : Nat}

theorem not_locks_of_quiet (hact : ∀ a ∈ act, a.writes = false) :
    act.bind Act.holds ≠ some true := by
  intro hlock
  obtain ⟨a, ha, hlock⟩ := Option.bind_eq_some_iff.mp hlock
  have hw := hact a ha
  unfold Act.holds at hlock
  split at hlock
  · exact absurd hw (by simp [Act.writes])
  · cases hlock
  · cases hlock
  · cases hlock

theorem held_of_not_locks {hs : List Record} {j : Nat} {d e : DetailTx}
    (hact : act.bind Act.holds ≠ some true)
    (h : held ((act.toList.map fun a => ⟨i, d, a⟩) ++ hs) j = some e) : held hs j = some e := by
  by_cases hij : i = j
  · subst hij
    rw [held_self] at h
    split at h
    next heq => exact absurd heq hact
    · cases h
    · exact h
  · rwa [held_other hij] at h

/-- A machine that unlocks or deactivates leaves only the locks of the others. -/
theorem held_of_releases {hs : List Record} {j : Nat} {d e : DetailTx}
    (hact : act.bind Act.holds = some false)
    (h : held ((act.toList.map fun a => ⟨i, d, a⟩) ++ hs) j = some e) :
    i ≠ j ∧ held hs j = some e := by
  have hij : i ≠ j := by
    intro hij
    subst hij
    rw [held_self, hact] at h
    cases h
  exact ⟨hij, by rwa [held_other hij] at h⟩

theorem LockInv.machine (hn : LockInv s n) {f : Faults} {m m' : Machine} {store : Store}
    (hm : n.machines i = some m) (hok : SafeAbort s n (.step i f))
    (h : m.Steps s f n.store store m' act) :
    LocksOwned s (n.after i m store m' act) := by
  -- When the machine holds its lock, the inputs of the others are not its own.
  have hothers : held n.history i = some m.detail → ∀ j e, i ≠ j → held n.history j = some e →
      ∀ o ∈ (s.inputObjectsForShard e.tx).1, o ∉ (s.inputObjectsForShard m.detail.tx).1 := by
    intro hi j e hij hj o ho
    exact hn.exclusive j i e m.detail (Ne.symm hij) hj hi o ho
  cases heff : h.effect with
  | quiet act finished hact =>
    apply hn.toLocksOwned.mono
    intro j d hj
    exact ⟨held_of_not_locks (not_locks_of_quiet hact) hj, fun o _ ho => ho⟩
  | lock st hst =>
    obtain ⟨_, hactive, heq⟩ := Store.lockObjects_ok hst
    -- What was `ACTIVE` belongs to no other machine.
    have hfree : ∀ j e, held n.history j = some e → ∀ o ∈ (s.inputObjectsForShard e.tx).1,
        o ∉ (s.inputObjectsForShard m.detail.tx).1 := by
      intro j e hj o ho hmine
      have hlocked := hn.locked j e hj o ho
      rw [hactive o hmine] at hlocked
      cases hlocked
    have hcases : ∀ j d, held ((some (Act.lock true)).toList.map
        (fun a => (⟨i, m.detail, a⟩ : Record)) ++ n.history) j = some d →
        (j = i ∧ d = m.detail) ∨ (i ≠ j ∧ held n.history j = some d) := by
      intro j d hj
      by_cases hij : i = j
      · subst hij
        rw [held_self] at hj
        injection hj with hj
        exact .inl ⟨rfl, hj.symm⟩
      · rw [held_other hij] at hj
        exact .inr ⟨hij, hj⟩
    subst heq
    constructor
    · intro j d hj o ho
      show (if o ∈ (s.inputObjectsForShard m.detail.tx).1 then some ObjectStatus.locked
        else n.store.statuses o) = some .locked
      rcases hcases j d hj with ⟨_, hd⟩ | ⟨_, hj⟩
      · rw [if_pos (hd ▸ ho)]
      · rw [if_neg (hfree j d hj o ho)]
        exact hn.locked j d hj o ho
    intro j k d e hjk hj hk o ho hoe
    rcases hcases j d hj with ⟨hji, hd⟩ | ⟨_, hj⟩
    · rcases hcases k e hk with ⟨hki, _⟩ | ⟨_, hk⟩
      · exact hjk (hji.trans hki.symm)
      · exact hfree k e hk o hoe (hd ▸ ho)
    rcases hcases k e hk with ⟨_, he⟩ | ⟨_, hk⟩
    · exact hfree j d hj o ho (he ▸ hoe)
    · exact hn.exclusive j k d e hjk hj hk o ho hoe
  | unlock st hst =>
    obtain ⟨hkeys, heq⟩ := Store.unlockObjects_ok hst
    subst heq
    obtain ⟨target, hpc, ht⟩ := h.transition rfl rfl
    apply hn.toLocksOwned.mono
    intro j d hj
    obtain ⟨hij, hj⟩ := held_of_releases rfl hj
    refine ⟨hj, ?_⟩
    intro o ho hlocked
    have hnot : o ∉ (s.inputObjectsForShard m.detail.tx).1 := by
      intro hmine
      rcases hok m target hm hpc ht with hi | hnone | ⟨o', ho', hl, ha⟩
      · exact hothers hi j d hij hj o ho hmine
      · exact hnone o hmine hlocked
      · exact (hkeys o' ho').elim hl ha
    show (if o ∈ (s.inputObjectsForShard m.detail.tx).1 then some ObjectStatus.active
      else n.store.statuses o) = some .locked
    rw [if_neg hnot]
    exact hlocked
  | deactivate st hst =>
    obtain ⟨_, heq⟩ := Store.deactivateObjects_ok hst
    subst heq
    have hi := hn.owner i m hm (h.holding_of_deactivate rfl)
    apply hn.toLocksOwned.mono
    intro j d hj
    obtain ⟨hij, hj⟩ := held_of_releases rfl hj
    refine ⟨hj, ?_⟩
    intro o ho hlocked
    show (if o ∈ (s.inputObjectsForShard m.detail.tx).1 then some ObjectStatus.inactive
      else n.store.statuses o) = some .locked
    rw [if_neg (hothers hi j d hij hj o ho)]
    exact hlocked
  | create st hst =>
    have hcreated := Store.createObjects_ok hst
    apply hn.toLocksOwned.mono
    intro j d hj
    refine ⟨held_of_not_locks (by simp [Act.holds]) hj, ?_⟩
    intro o ho hlocked
    exact hcreated.status hlocked

theorem LockInv.distinct_machine (hn : LockInv s n) {f : Faults} {m m' : Machine}
    {store : Store} (h : m.Steps s f n.store store m' act) (j : Nat)
    (d : DetailTx)
    (hj : held ((act.toList.map fun a => ⟨i, m.detail, a⟩) ++ n.history) j = some d) :
    (s.inputObjectsForShard d.tx).1.Nodup := by
  cases heff : h.effect with
  | lock st hst =>
    by_cases hij : i = j
    · subst hij
      rw [held_self] at hj
      cases hj
      exact (Store.lockObjects_ok hst).1
    · rw [held_other hij] at hj
      exact hn.distinct j d hj
  | quiet act finished hact =>
    refine hn.distinct j d (held_of_not_locks ?_ hj)
    exact not_locks_of_quiet hact
  | unlock | deactivate => exact hn.distinct j d (held_of_releases rfl hj).2
  | create => exact hn.distinct j d (held_of_not_locks (by simp [Act.holds]) hj)

theorem lockInv_new (store : Store) : LockInv s (.new store) where
  locked := by simp [Node.new, held]
  exclusive := by simp [Node.new, held]
  owner := by simp [Node.new]
  distinct := by simp [Node.new, held]

theorem LockInv.step (hn : LockInv s n) {input : Input} (hok : SafeAbort s n input)
    (h : n.step s input = some n') : LockInv s n' := by
  rcases (Node.step_cases h).around_or_machine with
    ha | ⟨i, f, m, m', store, act, hinput, hm, hsteps, heq⟩
  · obtain ⟨rs, hhist, hrs⟩ := ha.history
    have hheld : ∀ i, held n'.history i = held n.history i := by
      intro i
      rw [hhist]
      refine held_neutral (fun r hr => ?_) i
      rcases hrs r hr with ⟨data, hact⟩ | ⟨initial, hact⟩
      all_goals
        rw [hact]
        rfl
    refine ⟨hn.toLocksOwned.mono ?_, ?_, ?_⟩
    · intro i d hi
      exact ⟨(hheld i).symm.trans hi, fun o _ ho => ha.statuses o _ ho⟩
    · intro i m' hm' hh
      rw [hheld]
      rcases ha.machines i m' hm' with ⟨m, events, hm, heq⟩ | ⟨d, initial, hc, _, heq, _⟩
      · subst heq
        exact hn.owner i m hm hh
      · rw [heq, Machine.new_holding (Node.creates_iff.mp hc).1] at hh
        cases hh
    · intro i d hi
      exact hn.distinct i d ((hheld i).symm.trans hi)
  subst hinput heq
  refine ⟨hn.machine hm hok hsteps, ?_, hn.distinct_machine hsteps⟩
  intro j mj hmj hh
  rcases PMap.of_set hmj with ⟨hji, hmj⟩ | ⟨hji, hmj⟩
  · subst hmj hji
    rw [held_self, hsteps.detail]
    rcases hsteps.holding hh with hact | ⟨hhold, hact⟩
    · rw [hact]
      rfl
    · rw [hact]
      exact hn.owner j m hm hhold
  show held _ j = _
  rw [held_other (Ne.symm hji)]
  exact hn.owner j mj hmj hh

end Step

/-- **Locks are exclusive and owned** in every run in which no machine without a lock unlocks what
another has locked. -/
theorem locks_exclusive_owned {s : Service} {store : Store} {n : Node}
    (hrun : NodeRun s (SafeAbort s) store n) : LocksOwned s n := by
  suffices LockInv s n from this.toLocksOwned
  induction hrun with
  | start => exact lockInv_new store
  | step _ hok h ih => exact ih.step hok h

/-! ## §3. Two transactions with a common input. -/

def Node.notAborting (n : Node) : Input → Bool
  | .step i _ =>
    match n.machines i with
    | none => true
    | some m =>
      match m.pc with
      | .applying target => transitionTable m.state target ≠ some .toAborted
      | _ => true
  | _ => true

theorem SafeAbort.of_notAborting (s : Service) (n : Node) (input : Input)
    (h : n.notAborting input = true) : SafeAbort s n input := by
  cases input with
  | step =>
    intro m target hm hpc ht
    simp [Node.notAborting, hm, hpc, ht] at h
  | _ => trivial

def rivalTx : Transaction := ⟨[.mk [9] [] [[1]] [] [] [] [] [] [] []]⟩

/-- Object `[1]` is created, `pairTx` locks it, and `rivalTx` fails to. -/
def rivalInputs (steps : Nat) : List Input :=
  [.createObject [1] ⟨false, false⟩] ++ agreedInputs 0 pairTx 5 ++ agreedInputs 1 rivalTx steps

/-- What the runs below look at: the status of the object and the inputs machine 0 has locked. -/
def Node.lockView (n : Node) : Option ObjectStatus × Option (List Bytes) :=
  (n.store.statuses [1],
    (held n.history 0).map fun d => ((pairService true).inputObjectsForShard d.tx).1)

/-- `rivalTx` is refused the lock: it is `pairTx` that holds it. -/
theorem locks_exclusive_owned_rival :
    ∃ n, NodeRun (pairService true) (SafeAbort (pairService true)) .empty n ∧
      n.lockView = (some .locked, some [[1]]) ∧ LocksOwned (pairService true) n := by
  have hview : ((Node.new .empty).stepWhile (pairService true) Node.notAborting
      (rivalInputs 5)).map Node.lockView = some (some .locked, some [[1]]) := by decide +kernel
  obtain ⟨n, hn, hview⟩ := Option.map_eq_some_iff.mp hview
  have hrun := NodeRun.stepWhile .start
    (fun n input _ => SafeAbort.of_notAborting (pairService true) n input) hn
  exact ⟨n, hrun, hview, locks_exclusive_owned hrun⟩

/-- **The abort of a transaction unlocks the objects of another**: `rivalTx`, refused the lock,
aborts and unlocks the object of `pairTx`. -/
theorem rival_abort_unlocks :
    ∃ n, NodeRun (pairService true) (fun _ _ => True) .empty n ∧
      ¬ LocksOwned (pairService true) n := by
  have hview : ((Node.new .empty).stepAll (pairService true) (rivalInputs 6)).map Node.lockView =
      some (some .active, some [[1]]) := by decide +kernel
  obtain ⟨n, hn, hview⟩ := Option.map_eq_some_iff.mp hview
  refine ⟨n, NodeRun.stepAll .start (fun _ _ _ => trivial) hn, ?_⟩
  intro h
  injection hview with hstatus hheld
  obtain ⟨d, hd, hinputs⟩ := Option.map_eq_some_iff.mp hheld
  have hlocked := h.locked 0 d hd [1] (hinputs ▸ List.mem_cons_self)
  rw [hstatus] at hlocked
  cases hlocked

end Chainspace.Sbac
