/-
  Chainspace.Sbac.Commit — does a node commit a transaction as a whole?

  Not in general: `toObjectDeactivated` and `toObjectsCreated` are two database transactions. If the
  process ends between them, or the second fails, the inputs are `INACTIVE`, the outputs do not
  exist, and no code comes back to create them. If neither happens, and nobody else creates those
  objects, a commit is whole.
-/
import Chainspace.Sbac.Node

namespace Chainspace.Sbac

open Chainspace.Lib List

/-! ## §1. What no step undoes. -/

namespace Store

def Known (store : Store) (k : Bytes) : Prop :=
  (store.values k).isSome = true ∧ (store.statuses k).isSome = true

def Unknown (store : Store) (k : Bytes) : Prop := store.values k = none ∧ store.statuses k = none

end Store

section Effects
variable {s : Service} {d : DetailTx} {store store' : Store} {act : Option Act} {k : Bytes}

theorem Store.Known.setAll {keys : List Bytes} {target : ObjectStatus} (hk : store.Known k) :
    ({ store with statuses := fun o => if o ∈ keys then some target else store.statuses o } :
      Store).Known k := by
  refine ⟨hk.1, ?_⟩
  show (if k ∈ keys then some target else store.statuses k).isSome = true
  split
  · rfl
  · exact hk.2

theorem Store.Unknown.setAll {keys : List Bytes} {target : ObjectStatus} (hk : store.Unknown k)
    (hkeys : ∀ o ∈ keys, store.statuses o ≠ none) :
    ({ store with statuses := fun o => if o ∈ keys then some target else store.statuses o } :
      Store).Unknown k := by
  refine ⟨hk.1, ?_⟩
  show (if k ∈ keys then some target else store.statuses k) = none
  rw [if_neg (fun h => hkeys k h hk.2)]
  exact hk.2

theorem Store.Known.created {objs : List Object} (hk : store.Known k)
    (h : Created store objs store') : store'.Known k := by
  obtain ⟨status, hstatus⟩ := Option.isSome_iff_exists.mp hk.2
  unfold Store.Known
  rw [h.values k (h.ne_of_status hstatus), h.status hstatus]
  exact ⟨hk.1, rfl⟩

theorem Store.Unknown.created {objs : List Object} (hk : store.Unknown k)
    (h : Created store objs store') (hne : ∀ obj ∈ objs, obj.versionID ≠ k) : store'.Unknown k := by
  unfold Store.Unknown
  rw [h.values k hne, h.statuses k hne]
  exact hk

theorem StoreEffect.inactive (h : StoreEffect s d store act store')
    (hk : store.statuses k = some .inactive) : store'.statuses k = some .inactive := by
  cases h with
  | quiet => exact hk
  | lock st hst =>
    obtain ⟨_, hkeys, heq⟩ := Store.lockObjects_ok hst
    rw [heq]
    show (if k ∈ _ then _ else _) = _
    rw [if_neg (fun hmem => absurd ((hkeys k hmem).symm.trans hk) (by simp))]
    exact hk
  | unlock st hst =>
    obtain ⟨hkeys, heq⟩ := Store.unlockObjects_ok hst
    rw [heq]
    show (if k ∈ _ then _ else _) = _
    rw [if_neg (fun hmem => by simpa [hk] using hkeys k hmem)]
    exact hk
  | deactivate st hst =>
    obtain ⟨_, heq⟩ := Store.deactivateObjects_ok hst
    rw [heq]
    show (if k ∈ _ then _ else _) = _
    split
    · rfl
    · exact hk
  | create st hst => exact (Store.createObjects_ok hst).status hk

theorem Node.Steps.inactive {n n' : Node} {input : Input} (h : n.Steps s input n')
    (hk : n.store.statuses k = some .inactive) : n'.store.statuses k = some .inactive := by
  rcases h.around_or_machine with ha | ⟨i, f, m, m', store, act, _, _, hm, heq⟩
  · exact ha.statuses k _ hk
  · subst heq
    exact hm.effect.inactive hk

theorem StoreEffect.known (h : StoreEffect s d store act store') (hk : store.Known k) :
    store'.Known k := by
  cases h with
  | quiet => exact hk
  | lock st hst =>
    obtain ⟨_, _, heq⟩ := Store.lockObjects_ok hst
    exact heq ▸ hk.setAll
  | unlock st hst =>
    obtain ⟨_, heq⟩ := Store.unlockObjects_ok hst
    exact heq ▸ hk.setAll
  | deactivate st hst =>
    obtain ⟨_, heq⟩ := Store.deactivateObjects_ok hst
    exact heq ▸ hk.setAll
  | create st hst => exact hk.created (Store.createObjects_ok hst)

/-- **An object is created by `CreateObjects` only.** -/
theorem StoreEffect.unknown (h : StoreEffect s d store act store') (hk : store.Unknown k)
    (hact : act = some (.create true) →
      ∀ obj ∈ (s.outputObjectsForShard d.tx).1, obj.versionID ≠ k) : store'.Unknown k := by
  cases h with
  | quiet => exact hk
  | lock st hst =>
    obtain ⟨_, hkeys, heq⟩ := Store.lockObjects_ok hst
    exact heq ▸ hk.setAll (fun o ho => by simp [hkeys o ho])
  | unlock st hst =>
    obtain ⟨hkeys, heq⟩ := Store.unlockObjects_ok hst
    refine heq ▸ hk.setAll (fun o ho => ?_)
    rcases hkeys o ho with h | h
    all_goals simp [h]
  | deactivate st hst =>
    have hkeys := (Store.foldlM_setStatus hst).1
    obtain ⟨_, heq⟩ := Store.deactivateObjects_ok hst
    refine heq ▸ hk.setAll (fun o ho => ?_)
    obtain ⟨status, hstatus, _⟩ := hkeys o ho
    simp [hstatus]
  | create st hst => exact hk.created (Store.createObjects_ok hst) (hact rfl)

end Effects

/-! ## §2. The way of a machine to its commit. -/

/-- The states of a machine that waits for the commit of other shards. -/
def State.awaitsCommit : State → Bool
  | .waitingForCommit | .consensusCommitTriggered | .waitingForConsensusCommit => true
  | _ => false

def Machine.Committing (m : Machine) : Prop := m.pc = .applying .objectsCreated

/-- The machine has not come from a commit of others; it creates outputs after deactivating inputs.
-/
structure Machine.OnPath (m : Machine) : Prop where
  state : m.state.awaitsCommit = false
  committing : m.Committing → m.state = .objectsDeactivated

section Path
variable {s : Service} {f : Faults} {store store' : Store} {m m' : Machine} {act : Option Act}

/-- Only `toObjectDeactivated` is followed by the creation of the outputs. -/
theorem Called.next_objectsCreated {d : DetailTx} {t : Transition} {r : Applied}
    (h : Called s f d store t r) (hnext : r.next = some .objectsCreated) :
    t = .toObjectDeactivated ∧ r.act = some (.deactivate true) := by
  cases h with
  | deactivated => exact ⟨rfl, rfl⟩
  | locked | created =>
    split at hnext
    all_goals cases hnext
  | sent t op decision shards next _ ht =>
    injection hnext with hnext
    rw [hnext] at ht
    cases t <;> exact absurd ht (by simp [Transition.sends])
  | triggered t next act _ ht =>
    injection hnext with hnext
    rw [hnext] at ht
    cases t <;> exact absurd ht (by simp [Transition.triggers])
  | waits t ht =>
    injection hnext with hnext
    cases t <;> first | exact absurd hnext (by decide) | exact absurd ht (by decide)
  | _ => cases hnext

/-- A step to a state of the table does not lead into the wait for a commit. -/
theorem Transition.target_awaitsCommit {a b : State} {t : Transition}
    (h : transitionTable a b = some t) (ha : a.awaitsCommit = false) : b.awaitsCommit = false := by
  obtain ⟨hsource, htarget⟩ := transitionTable_iff.mp h
  subst htarget
  cases t
  all_goals first
    | rfl
    | (simp only [Transition.sources, mem_cons, not_mem_nil, or_false] at hsource
       subst hsource
       exact absurd ha (by decide))

theorem Machine.OnPath.of_pc {pc : Pc} (hm : m.OnPath) (hpc : pc ≠ .applying .objectsCreated) :
    ({ m with pc := pc } : Machine).OnPath :=
  ⟨hm.state, fun h => absurd h hpc⟩

theorem Machine.OnPath.moveTo (hm : m.OnPath) {st : State} (hst : st.awaitsCommit = false)
    (hne : st ≠ .objectsCreated) : (m.moveTo st).OnPath ∧ ¬ (m.moveTo st).Committing := by
  unfold Machine.moveTo
  split
  · exact ⟨hm.of_pc (by simp), by simp [Machine.Committing]⟩
  split
  · exact ⟨hm.of_pc (by simpa using hne), by simpa [Machine.Committing] using hne⟩
  · exact ⟨⟨hst, by simp [Machine.Committing]⟩, by simp [Machine.Committing]⟩

section
variable (h : m.Steps s f store store' m' act)
include h

/-- **A machine comes to create its outputs only by deactivating its inputs.** -/
theorem Machine.Steps.onPath (hm : m.OnPath) :
    m'.OnPath ∧ (m'.Committing → act = some (.deactivate true)) := by
  have hnot : ∀ pc, pc ≠ .applying .objectsCreated → ({ m with pc := pc } : Machine).OnPath ∧
      (({ m with pc := pc } : Machine).Committing → act = some (.deactivate true)) :=
    fun pc hpc => ⟨hm.of_pc hpc, fun h => absurd h hpc⟩
  cases h with
  | consume e rest m1 _ _ h =>
    have hstate : m1.state = m.state := by
      rcases processEvent_cases h with h | ⟨_, _, _, _, _, h⟩ | ⟨_, _, _, _, _, h⟩ <;> rw [h]
    have hpc' : ¬ (if m.state = .succeeded ∨ m.state = .aborted then Pc.idle else .moving) =
        .applying .objectsCreated := by
      split <;> simp
    exact ⟨⟨hstate ▸ hm.state, fun h => absurd h hpc'⟩, fun h => absurd h hpc'⟩
  | move =>
    obtain ⟨pc, heq, hcases⟩ := m.move_cases
    rw [heq]
    apply hnot
    rcases hcases with h | ⟨rest, h⟩ | ⟨target, h, ht⟩
    · rw [h]
      simp
    · rw [h]
      simp
    -- Nothing waits in `StateObjectsDeactivated`, which has no action.
    rw [h]
    intro hcreated
    cases hcreated
    obtain ⟨t, ht⟩ := Option.isSome_iff_exists.mp ht
    obtain ⟨hsource, htarget⟩ := transitionTable_iff.mp ht
    have ht : t = .toObjectsCreated := by
      cases t <;> first | rfl | exact absurd htarget (by decide)
    subst ht
    simp only [Transition.sources, mem_cons, not_mem_nil, or_false] at hsource
    rcases hsource with hs | hs
    · have hmove : m.move = { m with pc := .idle } := by simp [Machine.move, hs]
      have hidle : Pc.idle = pc := congrArg Machine.pc (hmove.symm.trans heq)
      rw [h] at hidle
      cases hidle
    have hstate := hm.state
    rw [hs] at hstate
    exact absurd hstate (by decide)
  | checked =>
    obtain ⟨hp, hc⟩ := hm.moveTo (show State.objectLocked.awaitsCommit = false from rfl) (by simp)
    exact ⟨hp, fun h => absurd h hc⟩
  | check | stay | unlock
  | failed => exact hnot _ (by simp)
  | unusable =>
    obtain ⟨hp, hc⟩ := hm.moveTo
      (show State.rejectPhase1Broadcasted.awaitsCommit = false from rfl) (by simp)
    exact ⟨hp, fun h => absurd h hc⟩
  | applied target next t _ ht _ hnext =>
    have htarget := Transition.target_awaitsCommit ht hm.state
    have hcommit : next = .objectsCreated → target = .objectsDeactivated ∧
        (callTransition s f m.detail store t).act = some (.deactivate true) := by
      intro hcreated
      rw [hcreated] at hnext
      obtain ⟨hdeact, hact⟩ :=
        (callTransition_called s f m.detail store t).next_objectsCreated hnext
      rw [hdeact] at ht
      exact ⟨(transitionTable_iff.mp ht).2, hact⟩
    refine ⟨⟨htarget, fun h => ?_⟩, fun h => ?_⟩
    · exact (hcommit (Pc.applying.inj h)).1
    · exact (hcommit (Pc.applying.inj h)).2
  | finished => exact ⟨⟨rfl, by simp [Machine.Committing]⟩, by simp [Machine.Committing]⟩

theorem Machine.Steps.committing (hact : act = some (.deactivate true)) : m'.Committing := by
  obtain ⟨target, hpc, ht⟩ := h.transition hact rfl
  obtain ⟨_, hcall, hnext⟩ := h.of_calls hpc ht (by simp)
  have heq : callTransition s f m.detail store .toObjectDeactivated =
      toObjectDeactivated s f m.detail store := rfl
  rw [heq] at hcall hnext
  rcases toObjectDeactivated_cases s f m.detail store with ⟨st, _, heq⟩ | ⟨e, _, heq⟩
  · rw [heq] at hnext
    rcases hnext with ⟨hnext, _⟩ | ⟨next, hnext, hm'⟩
    · cases hnext
    injection hnext with hnext
    rw [hm', ← hnext]
    rfl
  · rw [heq, hact] at hcall
    cases hcall

theorem Machine.Steps.committing_of_create (hact : act = some (.create true)) : m.Committing := by
  obtain ⟨target, hpc, ht⟩ := h.transition hact rfl
  have htarget : target = .objectsCreated := (transitionTable_iff.mp ht).2
  rw [htarget] at hpc
  exact hpc

theorem Machine.Steps.creates (hm : m.OnPath)
    (hc : m.Committing) : act = some (.create true) ∨ f.db = true ∨
      ∃ e, store.createObjects (s.outputObjectsForShard m.detail.tx).1 = .error e := by
  have hpc : m.pc = .applying .objectsCreated := hc
  have ht : transitionTable m.state .objectsCreated = some .toObjectsCreated := by
    rw [hm.committing hc]
    rfl
  obtain ⟨_, hcall, _⟩ := h.of_calls hpc ht (by simp)
  have hcall : act = (toObjectsCreated s f m.detail store).act := hcall
  rw [hcall]
  rcases toObjectsCreated_cases s f m.detail store with ⟨st, _, heq⟩ | ⟨e, he, heq⟩
  · rw [heq]
    exact .inl rfl
  cases hdb : f.db with
  | true => exact .inr (.inl rfl)
  | false => exact .inr (.inr ⟨e, he hdb⟩)

theorem Machine.Steps.deactivate_ne {tx : Transaction}
    (htx : m.detail.tx = tx) (hinputs : (s.inputObjectsForShard tx).1 ≠ [])
    (hin : ∀ o ∈ (s.inputObjectsForShard tx).1, store.statuses o = some .inactive) :
    act ≠ some (.deactivate true) := by
  intro hact
  obtain ⟨o, ho⟩ := exists_mem_of_ne_nil _ hinputs
  exact ((hact ▸ h.effect).deactivated (htx ▸ ho)).1 (hin o ho)

end

end Path

/-! ## §3. A commit is whole. -/

def Node.Deactivated (n : Node) (id : Bytes) : Prop := n.Did id (· = .deactivate true)

/-- The machines of the transaction, if there are any, wait for an event. -/
def Node.AtRest (n : Node) (id : Bytes) : Prop :=
  ∀ i m, n.machines i = some m → m.detail.id = id → m.pc = .idle

/-- **A commit is whole**: when the transaction rests, its inputs are `INACTIVE` because of it and
its outputs exist, or it has deactivated nothing and its outputs do not exist. -/
def CommitWhole (s : Service) (id : Bytes) (tx : Transaction) (n : Node) : Prop :=
  n.AtRest id →
    (n.Deactivated id ∧
        (∀ o ∈ (s.inputObjectsForShard tx).1, n.store.statuses o = some .inactive) ∧
        ∀ obj ∈ (s.outputObjectsForShard tx).1, n.store.Known obj.versionID) ∨
      (¬ n.Deactivated id ∧
        ∀ obj ∈ (s.outputObjectsForShard tx).1, n.store.Unknown obj.versionID)

/-- An input that does not come between deactivation and creation, and makes nobody else create the
outputs. -/
structure SafeCommit (s : Service) (id : Bytes) (tx : Transaction) (n : Node) (input : Input) :
    Prop where
  /-- a machine of the transaction starts with the transaction, and not for the commit of others -/
  starts : ∀ d initial, input.creates s = some (d, initial) → d.id = id →
    d.tx = tx ∧ initial = .waitingForConsensus1
  /-- no client creates one of the outputs -/
  objects : ∀ object f, input = .createObject object f →
    ∀ obj ∈ (s.outputObjectsForShard tx).1, s.hash object ≠ obj.versionID
  /-- no other transaction creates one of the outputs -/
  others : ∀ i f m, input = .step i f → n.machines i = some m → m.Committing → m.detail.id ≠ id →
    ∀ obj ∈ (s.outputObjectsForShard tx).1, ∀ obj' ∈ (s.outputObjectsForShard m.detail.tx).1,
      obj'.versionID ≠ obj.versionID
  /-- the database does not fail when the transaction creates its outputs -/
  creation : ∀ i f m, input = .step i f → n.machines i = some m → m.Committing → m.detail.id = id →
    f.db = false
  /-- the process does not end before that -/
  restart : input = .restart → ∀ i m, n.machines i = some m → m.detail.id = id → ¬ m.Committing

inductive CommitPhase (s : Service) (id : Bytes) (tx : Transaction) (n : Node) : Prop
  | before (hdeact : ¬ n.Deactivated id)
      (hout : ∀ obj ∈ (s.outputObjectsForShard tx).1, n.store.Unknown obj.versionID)
      (hnone : ∀ i m, n.machines i = some m → m.detail.id = id → ¬ m.Committing)
  | between (i : Nat) (m : Machine) (hm : n.machines i = some m) (hid : m.detail.id = id)
      (hc : m.Committing) (hdeact : n.Deactivated id)
      (hin : ∀ o ∈ (s.inputObjectsForShard tx).1, n.store.statuses o = some .inactive)
      (hout : ∀ obj ∈ (s.outputObjectsForShard tx).1, n.store.Unknown obj.versionID)
      (hone : ∀ j m, n.machines j = some m → m.detail.id = id → m.Committing → j = i)
  | after (hdeact : n.Deactivated id)
      (hin : ∀ o ∈ (s.inputObjectsForShard tx).1, n.store.statuses o = some .inactive)
      (hout : ∀ obj ∈ (s.outputObjectsForShard tx).1, n.store.Known obj.versionID)
      (hnone : ∀ i m, n.machines i = some m → m.detail.id = id → ¬ m.Committing)

/-- The invariant of a node. -/
structure CommitInv (s : Service) (id : Bytes) (tx : Transaction) (n : Node) : Prop where
  numbered : n.Numbered
  path : ∀ i m, n.machines i = some m → m.detail.id = id → m.detail.tx = tx ∧ m.OnPath
  phase : CommitPhase s id tx n

section Commit
variable {s : Service} {id : Bytes} {tx : Transaction} {n n' : Node}

theorem CommitInv.whole (hn : CommitInv s id tx n) : CommitWhole s id tx n := by
  intro hrest
  cases hn.phase with
  | before hdeact hout => exact .inr ⟨hdeact, hout⟩
  | between i m hm hid hc =>
    have hidle := hrest i m hm hid
    rw [hc] at hidle
    cases hidle
  | after hdeact hin hout => exact .inl ⟨hdeact, hin, hout⟩

/-- The phase stays with the machines, the objects and the history of the transaction. -/
theorem CommitPhase.congr (hn : CommitPhase s id tx n)
    (hmachines : ∀ i m', n'.machines i = some m' → m'.detail.id = id → m'.Committing →
      ∃ m, n.machines i = some m ∧ m.detail.id = id ∧ m.Committing)
    (hkept : ∀ i m, n.machines i = some m → m.detail.id = id → m.Committing →
      ∃ m', n'.machines i = some m' ∧ m'.detail.id = id ∧ m'.Committing)
    (hhistory : n'.Deactivated id ↔ n.Deactivated id)
    (hinactive : ∀ o, n.store.statuses o = some .inactive → n'.store.statuses o = some .inactive)
    (hunknown : ∀ obj ∈ (s.outputObjectsForShard tx).1, n.store.Unknown obj.versionID →
      n'.store.Unknown obj.versionID)
    (hknown : ∀ k, n.store.Known k → n'.store.Known k) : CommitPhase s id tx n' := by
  have hnone : (∀ i m, n.machines i = some m → m.detail.id = id → ¬ m.Committing) →
      ∀ i m, n'.machines i = some m → m.detail.id = id → ¬ m.Committing := by
    intro h i m' hm' hid' hc'
    obtain ⟨m, hm, hid, hc⟩ := hmachines i m' hm' hid' hc'
    exact h i m hm hid hc
  cases hn with
  | before hdeact hout hold =>
    exact .before (fun h => hdeact (hhistory.mp h)) (fun o ho => hunknown o ho (hout o ho))
      (hnone hold)
  | between i m hm hid hc hdeact hin hout hone =>
    obtain ⟨m', hm', hid', hc'⟩ := hkept i m hm hid hc
    refine .between i m' hm' hid' hc' (hhistory.mpr hdeact) (fun o ho => hinactive o (hin o ho))
      (fun o ho => hunknown o ho (hout o ho)) ?_
    intro j mj hmj hidj hcj
    obtain ⟨mj', hmj', hidj', hcj'⟩ := hmachines j mj hmj hidj hcj
    exact hone j mj' hmj' hidj' hcj'
  | after hdeact hin hout hold =>
    exact .after (hhistory.mpr hdeact) (fun o ho => hinactive o (hin o ho))
      (fun o ho => hknown _ (hout o ho)) (hnone hold)

theorem CommitPhase.congr_machines (hn : CommitPhase s id tx n)
    (hmachines : n'.machines = n.machines)
    (hhistory : n'.Deactivated id ↔ n.Deactivated id)
    (hinactive : ∀ o, n.store.statuses o = some .inactive → n'.store.statuses o = some .inactive)
    (hunknown : ∀ obj ∈ (s.outputObjectsForShard tx).1, n.store.Unknown obj.versionID →
      n'.store.Unknown obj.versionID)
    (hknown : ∀ k, n.store.Known k → n'.store.Known k) : CommitPhase s id tx n' :=
  hn.congr (fun _ m hm hid hc => ⟨m, hmachines ▸ hm, hid, hc⟩)
    (fun _ m hm hid hc => ⟨m, hmachines ▸ hm, hid, hc⟩) hhistory hinactive hunknown hknown

variable {act : Option Act} {i : Nat} {store : Store}

/-- A step deactivates the transaction if it is one of its machine, and does so. -/
theorem deactivated_step {m m' : Machine} : (n.after i m store m' act).Deactivated id ↔
      (m.detail.id = id ∧ act = some (.deactivate true)) ∨ n.Deactivated id := by
  refine (Node.did_iff rfl).trans ?_
  simp [Node.Deactivated]

theorem CommitPhase.other (hn : CommitPhase s id tx n) {f : Faults} {m m' : Machine}
    (hm : n.machines i = some m) (hid : m.detail.id ≠ id)
    (hok : SafeCommit s id tx n (.step i f)) (h : m.Steps s f n.store store m' act) :
    CommitPhase s id tx (n.after i m store m' act) := by
  have hid' : m'.detail.id ≠ id := h.detail ▸ hid
  apply hn.congr
  · intro j mj hmj hidj hcj
    rcases PMap.of_set hmj with ⟨_, hmj⟩ | ⟨_, hmj⟩
    · exact absurd (hmj ▸ hidj) hid'
    · exact ⟨mj, hmj, hidj, hcj⟩
  · intro j mj hmj hidj hcj
    refine ⟨mj, ?_, hidj, hcj⟩
    show n.machines.set i m' j = some mj
    rw [PMap.set_ne]
    · exact hmj
    intro hji
    rw [hji, hm] at hmj
    injection hmj with hmj
    exact hid (hmj ▸ hidj)
  · rw [deactivated_step]
    exact ⟨fun h => h.resolve_left (fun h => hid h.1), .inr⟩
  · intro o ho
    exact h.effect.inactive ho
  · intro obj hobj hk
    refine h.effect.unknown hk ?_
    intro hact obj' hobj'
    exact hok.others i f m rfl hm (h.committing_of_create hact) hid obj hobj obj' hobj'
  · intro k hk
    exact h.effect.known hk

section
variable (hn : CommitInv s id tx n) (hinputs : (s.inputObjectsForShard tx).1 ≠ [])
  (hdistinct : ((s.outputObjectsForShard tx).1.map Object.versionID).Nodup)
include hn hinputs hdistinct

theorem CommitInv.own {f : Faults} {m m' : Machine} (hm : n.machines i = some m)
    (hid : m.detail.id = id) (hok : SafeCommit s id tx n (.step i f))
    (h : m.Steps s f n.store store m' act) :
    CommitPhase s id tx (n.after i m store m' act) := by
  obtain ⟨htx, hpath⟩ := hn.path i m hm hid
  have hinactive : ∀ o ∈ (s.inputObjectsForShard tx).1, n.store.statuses o = some .inactive →
      store.statuses o = some .inactive := fun o _ ho => h.effect.inactive ho
  -- A machine about to create was so before, or is this one and has just deactivated.
  have hafter : ∀ j mj, n.machines.set i m' j = some mj → mj.Committing →
      (j = i ∧ act = some (.deactivate true)) ∨ (j ≠ i ∧ n.machines j = some mj) := by
    intro j mj hmj hcj
    by_cases hji : j = i
    · rw [hji, PMap.set_self] at hmj
      injection hmj with hmj
      exact .inl ⟨hji, (h.onPath hpath).2 (hmj ▸ hcj)⟩
    · exact .inr ⟨hji, by rwa [PMap.set_ne _ _ hji] at hmj⟩
  cases hn.phase with
  | before hdeact hout hnone =>
    have hnc := hnone i m hm hid
    have hout' : ∀ obj ∈ (s.outputObjectsForShard tx).1, store.Unknown obj.versionID :=
      fun obj hobj => h.effect.unknown (hout obj hobj)
        (fun hact => absurd (h.committing_of_create hact) hnc)
    by_cases hact : act = some (.deactivate true)
    · -- The inputs are deactivated: the machine creates its outputs next.
      refine .between i m' (PMap.set_self _ _ _) (h.detail ▸ hid) (h.committing hact)
        (deactivated_step.mpr (.inl ⟨hid, hact⟩)) ?_ hout' ?_
      · intro o ho
        exact ((hact ▸ h.effect).deactivated (htx ▸ ho)).2
      · intro j mj hmj hidj hcj
        rcases hafter j mj hmj hcj with ⟨hji, _⟩ | ⟨_, hmj⟩
        · exact hji
        · exact absurd hcj (hnone j mj hmj hidj)
    refine .before ?_ hout' ?_
    · rw [deactivated_step]
      intro hd
      exact hd.elim (fun hd => hact hd.2) hdeact
    intro j mj hmj hidj hcj
    rcases hafter j mj hmj hcj with ⟨_, hd⟩ | ⟨_, hmj⟩
    · exact hact hd
    · exact hnone j mj hmj hidj hcj
  | between k mk hmk hidk hck hdeact hin hout hone =>
    have hact := h.deactivate_ne htx hinputs hin
    by_cases hki : k = i
    · -- It is this machine that creates the outputs, and it can not fail.
      rw [hki, hm] at hmk
      cases hmk
      have hcreate : act = some (.create true) := by
        rcases h.creates hpath hck with hact | hdb | ⟨e, he⟩
        · exact hact
        · rw [hok.creation i f m rfl hm hck hid] at hdb
          cases hdb
        rw [htx] at he
        obtain ⟨st, hst⟩ := Store.createObjects_of_absent hdistinct hout
        rw [hst] at he
        cases he
      refine .after (deactivated_step.mpr (.inr hdeact))
        (fun o ho => hinactive o ho (hin o ho)) ?_ ?_
      · intro obj hobj
        have heff := h.effect
        rw [hcreate] at heff
        cases heff with
        | quiet _ finished hq => exact absurd (hq _ rfl) (by simp [Act.writes])
        | create st hst =>
          have hexists := (Store.createObjects_ok hst).exists_ obj (htx ▸ hobj)
          exact ⟨by rw [hexists.1]; rfl, by rw [hexists.2]; rfl⟩
      intro j mj hmj hidj hcj
      rcases hafter j mj hmj hcj with ⟨_, hd⟩ | ⟨hji, hmj⟩
      · exact hact hd
      · exact hji ((hone j mj hmj hidj hcj).trans hki)
    have hnc : ¬ m.Committing := fun hc => hki (hone i m hm hid hc).symm
    refine .between k mk ((PMap.set_ne _ _ hki).trans hmk) hidk hck
      (deactivated_step.mpr (.inr hdeact)) (fun o ho => hinactive o ho (hin o ho)) ?_ ?_
    · intro obj hobj
      exact h.effect.unknown (hout obj hobj)
        (fun hact => absurd (h.committing_of_create hact) hnc)
    intro j mj hmj hidj hcj
    rcases hafter j mj hmj hcj with ⟨_, hd⟩ | ⟨_, hmj⟩
    · exact absurd hd hact
    · exact hone j mj hmj hidj hcj
  | after hdeact hin hout hnone =>
    refine .after (deactivated_step.mpr (.inr hdeact)) (fun o ho => hinactive o ho (hin o ho))
      (fun obj hobj => h.effect.known (hout obj hobj)) ?_
    intro j mj hmj hidj hcj
    rcases hafter j mj hmj hcj with ⟨_, hd⟩ | ⟨_, hmj⟩
    · exact h.deactivate_ne htx hinputs hin hd
    · exact hnone j mj hmj hidj hcj

theorem CommitInv.step {input : Input}
    (hok : SafeCommit s id tx n input) (h : n.step s input = some n') : CommitInv s id tx n' := by
  have hsteps := Node.step_cases h
  refine ⟨hsteps.numbered hn.numbered, ?_, ?_⟩
  · intro i m' hm' hid'
    rcases hsteps.machines hm' with hm | ⟨d, initial, hc, _, heq⟩ | ⟨m, e, hm, _, heq⟩ |
      ⟨m, f, act, _, hm, hstep⟩
    · exact hn.path i m' hm hid'
    · subst heq
      obtain ⟨htx, hinit⟩ := hok.starts d initial hc hid'
      exact ⟨htx, hinit ▸ rfl, fun h => absurd h (by simp [Machine.Committing, Machine.new])⟩
    · subst heq
      obtain ⟨htx, hpath⟩ := hn.path i m hm hid'
      exact ⟨htx, hpath.state, hpath.committing⟩
    rw [hstep.detail] at hid' ⊢
    obtain ⟨htx, hpath⟩ := hn.path i m hm hid'
    exact ⟨htx, (hstep.onPath hpath).1⟩
  cases hsteps with
  | same => exact hn.phase
  | arrive input n1 proposals h1 hproposals =>
    have haround := Node.around_arrive h1 hproposals
    rcases h1 with h1 | ⟨d, initial, _, h1, _⟩
    · subst h1
      exact hn.phase.congr_machines rfl ((haround _ _).did_iff (by simp) (by simp))
        (fun _ h => h) (fun _ _ h => h)
        (fun _ h => h)
    subst h1
    apply hn.phase.congr
    · intro i m' hm' hid' hc'
      rcases PMap.of_set hm' with ⟨_, hm'⟩ | ⟨_, hm'⟩
      · subst hm'
        exact absurd hc' (by simp [Machine.Committing, Machine.new])
      · exact ⟨m', hm', hid', hc'⟩
    · intro i m hm hid hcm
      refine ⟨m, ?_, hid, hcm⟩
      show n.machines.set n.next (.new d initial) i = some m
      rw [PMap.set_ne _ _ (Nat.ne_of_lt (hn.numbered i m hm))]
      exact hm
    · exact (haround _ _).did_iff (by simp) (by simp)
    · exact fun _ h => h
    · exact fun _ _ h => h
    · exact fun _ h => h
  | object object f =>
    have hcase := n.store.update_createObject f.db (s.hash object) object
    generalize (n.store.update f.db (·.createObject (s.hash object) object)).1 = store at hcase
    refine hn.phase.congr_machines rfl Iff.rfl ?_ ?_ ?_
    · intro o ho
      rcases hcase with heq | hcreated
      · exact heq ▸ ho
      · exact hcreated.status ho
    · intro obj hobj hk
      rcases hcase with heq | hcreated
      · exact heq ▸ hk
      refine hk.created hcreated ?_
      intro obj' hobj'
      rw [mem_singleton.mp hobj']
      exact hok.objects object f rfl obj hobj
    · intro k hk
      rcases hcase with heq | hcreated
      · exact heq ▸ hk
      · exact hk.created hcreated
  | requeue =>
    exact hn.phase.congr_machines rfl Iff.rfl (fun _ h => h) (fun _ _ h => h) (fun _ h => h)
  | give e rest i m _ _ hm =>
    -- An event does not move a machine.
    have hset : ∀ j mj, n.machines.set i { m with events := m.events ++ [e] } j = some mj →
        ∃ mj', n.machines j = some mj' ∧ mj'.detail = mj.detail ∧ mj'.pc = mj.pc := by
      intro j mj hmj
      rcases PMap.of_set hmj with ⟨hji, hmj⟩ | ⟨hji, hmj⟩
      · exact ⟨m, hji ▸ hm, hmj ▸ rfl, hmj ▸ rfl⟩
      · exact ⟨mj, hmj, rfl, rfl⟩
    refine hn.phase.congr ?_ ?_ Iff.rfl (fun _ h => h) (fun _ _ h => h) (fun _ h => h)
    · intro j mj hmj hidj hcj
      obtain ⟨mj', hmj', hdetail, hpc⟩ := hset j mj hmj
      exact ⟨mj', hmj', hdetail ▸ hidj, hpc.trans hcj⟩
    intro j mj hmj hidj hcj
    by_cases hji : j = i
    · rw [hji, hm] at hmj
      injection hmj with hmj
      subst hmj hji
      exact ⟨_, PMap.set_self _ _ _, hidj, hcj⟩
    · exact ⟨mj, (PMap.set_ne _ _ hji).trans hmj, hidj, hcj⟩
  | machine i f m m' store act hm hstep =>
    by_cases hid : m.detail.id = id
    · exact hn.own hinputs hdistinct hm hid hok hstep
    · exact hn.phase.other hm hid hok hstep
  | restart =>
    have hnone := hok.restart rfl
    cases hn.phase with
    | before hdeact hout => exact .before hdeact hout (fun i m hm => nomatch hm)
    | between i m hm hid hc => exact absurd hc (hnone i m hm hid)
    | after hdeact hin hout => exact .after hdeact hin hout (fun i m hm => nomatch hm)

end

end Commit

/-- **A commit is whole** in every run that does not come between deactivation and creation, for a
transaction with inputs on the node and new, distinct outputs. -/
theorem commit_whole {s : Service} {id : Bytes} {tx : Transaction} {store : Store} {n : Node}
    (hinputs : (s.inputObjectsForShard tx).1 ≠ [])
    (hdistinct : ((s.outputObjectsForShard tx).1.map Object.versionID).Nodup)
    (hnew : ∀ obj ∈ (s.outputObjectsForShard tx).1, store.Unknown obj.versionID)
    (hrun : NodeRun s (SafeCommit s id tx) store n) : CommitWhole s id tx n := by
  suffices CommitInv s id tx n from this.whole
  induction hrun with
  | start =>
    have hnone : ∀ i m, (Node.new store).machines i ≠ some m := by simp [Node.new]
    refine ⟨fun i m hm => absurd hm (hnone i m), fun i m hm => absurd hm (hnone i m), ?_⟩
    refine .before ?_ hnew (fun i m hm => absurd hm (hnone i m))
    intro h
    obtain ⟨r, hr, _⟩ := h
    exact absurd hr (by simp [Node.new])
  | step _ hok h ih => exact ih.step hinputs hdistinct hok h

/-! ## §4. A transaction with an input and an output on node 1. -/

def commitTx : Transaction := ⟨[.mk [9] [] [[1]] [] [⟨[], [7]⟩] [] [] [] [] []]⟩

def commitID : Bytes := txIDOf (fun data => data) commitTx

/-- The input is created, the shard agrees on `commitTx`, and its machine steps. -/
def commitInputs (steps : Nat) : List Input :=
  [.createObject [1] ⟨false, false⟩] ++ agreedInputs 0 commitTx steps

/-- What the runs below look at: the transaction, its input and its output. -/
def Node.commitView (n : Node) : Bool × Option ObjectStatus × Bool :=
  ((n.machines 0).isSome, n.store.statuses [1], (n.store.values [9, 1, 7, 0, 0, 0, 0]).isSome)

def Node.commitOnly (n : Node) : Input → Bool
  | .step i _ => (n.machines i).all fun m => m.detail.id = commitID
  | _ => true

theorem commitInputs_safe (n : Node) (steps : Nat) : ∀ input ∈ commitInputs steps,
    n.commitOnly input = true → SafeCommit (pairService true) commitID commitTx n input := by
  intro input hinput honly
  have houtputs : ((pairService true).outputObjectsForShard commitTx).1 =
      [⟨[9, 1, 7, 0, 0, 0, 0], [7], .active, []⟩] := by decide
  simp only [commitInputs, agreedInputs, cons_append, nil_append, mem_cons, mem_replicate] at hinput
  rcases hinput with h | h | h | h | ⟨_, h⟩
  · subst h
    refine ⟨by simp [Input.creates], ?_, by simp, by simp, by simp⟩
    intro object f h obj hobj
    injection h with h _
    rw [houtputs, mem_singleton] at hobj
    rw [hobj, ← h]
    decide
  · subst h
    refine ⟨?_, by simp, by simp, by simp, by simp⟩
    intro d initial h _
    injection h with h
    injection h with hd hi
    exact ⟨hd ▸ rfl, hi.symm⟩
  · subst h
    refine ⟨?_, by simp, by simp, by simp, by simp⟩
    intro d initial h _
    injection h with h
    injection h with hd hi
    exact ⟨hd ▸ rfl, hi.symm⟩
  · subst h
    exact ⟨by simp [Input.creates], by simp, by simp, by simp, by simp⟩
  subst h
  refine ⟨by simp [Input.creates], by simp, ?_, ?_, by simp⟩
  · intro i f m h hm _ hid
    injection h with h _
    subst h
    simp [Node.commitOnly, hm, hid] at honly
  intro i f m h hm _ _
  injection h with _ h
  rw [← h]

/-- Left alone, `commitTx` deactivates its input and creates its output. -/
theorem commit_whole_alone :
    ∃ n, NodeRun (pairService true) (SafeCommit (pairService true) commitID commitTx) .empty n ∧
      n.commitView = (true, some .inactive, true) ∧
      CommitWhole (pairService true) commitID commitTx n := by
  have hview : ((Node.new .empty).stepWhile (pairService true) Node.commitOnly
      (commitInputs 8)).map Node.commitView = some (true, some .inactive, true) := by decide +kernel
  obtain ⟨n, hn, hview⟩ := Option.map_eq_some_iff.mp hview
  have hrun := NodeRun.stepWhile .start (fun n => commitInputs_safe n 8) hn
  refine ⟨n, hrun, hview, commit_whole (by decide) (by decide) ?_ hrun⟩
  intro obj _
  exact ⟨rfl, rfl⟩

def Act.deactivated : Act → Bool
  | .deactivate ok => ok
  | _ => false

theorem Act.of_deactivated {a : Act} (h : a.deactivated = true) : a = .deactivate true := by
  cases a with
  | deactivate => exact congrArg Act.deactivate h
  | _ => exact absurd h (by simp [Act.deactivated])

/-- **A crash between the two store calls loses the outputs**: the input is `INACTIVE`. -/
theorem crash_loses_outputs : ∃ n, NodeRun (pairService true) (fun _ _ => True) .empty n ∧
      ¬ CommitWhole (pairService true) commitID commitTx n := by
  have hview : ((Node.new .empty).stepAll (pairService true) (commitInputs 6)).map
      (fun n => (n.commitView,
        n.history.any fun r => decide (r.detail.id = commitID) && r.act.deactivated)) =
        some ((true, some .inactive, false), true) := by decide +kernel
  obtain ⟨n, hn, hview⟩ := Option.map_eq_some_iff.mp hview
  injection hview with hview hany
  obtain ⟨r, hr, hdeact⟩ := any_eq_true.mp hany
  have hrun := NodeRun.stepAll .start (fun _ _ _ => trivial) hn
  refine ⟨_, hrun.step trivial (show n.step _ .restart = some _ from rfl), ?_⟩
  intro h
  rcases h (fun i m hm => nomatch hm) with ⟨_, _, hout⟩ | ⟨hnot, _⟩
  · have hknown := hout ⟨[9, 1, 7, 0, 0, 0, 0], [7], .active, []⟩ (by decide)
    have hview : (n.store.values [9, 1, 7, 0, 0, 0, 0]).isSome = false :=
      congrArg (fun v => v.2.2) hview
    exact absurd (hview.symm.trans hknown.1) (by simp)
  apply hnot
  simp only [Bool.and_eq_true, decide_eq_true_eq] at hdeact
  obtain ⟨hid, hact⟩ := hdeact
  exact ⟨r, hr, hid, Act.of_deactivated hact⟩

end Chainspace.Sbac
