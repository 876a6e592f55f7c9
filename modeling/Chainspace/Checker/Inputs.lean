/-
  Chainspace.Checker.Inputs — do the checkers of contracts see the objects a transaction consumes?

  They see the values the client has sent. Before it locks the inputs of a transaction, a node
  checks that the objects of its shard exist and are not `INACTIVE`; nobody compares their values
  with those the checkers were given. For a transaction of the API, the checkers see the stored
  values exactly when the mappings of the request are right.
-/
import Chainspace.Checker.Check
import Chainspace.Sbac.Api
import Chainspace.Sbac.Node

namespace Chainspace.Sbac

open Chainspace.Lib List

/-! ## §1. The objects of a transaction exist. -/

section Values
variable {s : Service} {d : DetailTx} {store store' : Store} {act : Option Act} {k v : Bytes}

theorem StoreEffect.values (h : StoreEffect s d store act store') (hv : store.values k = some v) :
    store'.values k = some v := by
  cases h with
  | quiet => exact hv
  | lock st h =>
    rw [(Store.lockObjects_ok h).2.2]
    exact hv
  | unlock st h =>
    rw [(Store.unlockObjects_ok h).2]
    exact hv
  | deactivate st h =>
    rw [(Store.deactivateObjects_ok h).2]
    exact hv
  | create st h => exact (Store.createObjects_ok h).value hv

theorem Node.Steps.values {n n' : Node} {input : Input} (h : n.Steps s input n')
    (hv : n.store.values k = some v) : n'.store.values k = some v := by
  cases h with
  | arrive input n1 proposals h1 =>
    rcases h1 with h1 | ⟨detail, initial, _, h1, _⟩
    all_goals exact h1 ▸ hv
  | object object f =>
    rcases n.store.update_createObject f.db (s.hash object) object with heq | hcreated
    · show (n.store.update f.db _).1.values k = some v
      rw [heq]
      exact hv
    · exact hcreated.value hv
  | machine i f m m' store act _ h => exact h.effect.values hv
  | _ => exact hv

theorem Service.traceUsable_values {fail : Bool} {t : Trace}
    (h : s.traceUsable fail store t = true) {vid : Bytes} (hvid : vid ∈ t.versionIDs)
    (hlocal : s.shardForVersionID vid = s.shardID) : (store.values vid).isSome = true := by
  unfold Service.traceUsable at h
  split at h
  · cases h
  split at h
  · cases h
  next hobjects =>
    have hmem : vid ∈ (t.inputObjectVersionIDs ++ t.inputReferenceVersionIDs).filter
        (fun v => s.shardForVersionID v = s.shardID) :=
      mem_filter.mpr ⟨hvid, by simpa using hlocal⟩
    exact Store.getObjects_values hobjects hmem

end Values

/-- Where a machine stands in the loop over its traces: the objects of those behind it exist. -/
def Machine.ChecksBehind (s : Service) (store : Store) (m : Machine) : Prop :=
  ∀ rest, m.pc = .checking rest → ∃ behind, m.detail.tx.traces = behind ++ rest ∧
    ∀ t ∈ behind, ∀ vid ∈ t.versionIDs, s.shardForVersionID vid = s.shardID →
      (store.values vid).isSome = true

section Checking
variable {s : Service} {f : Faults} {store store' : Store} {m m' : Machine} {act : Option Act}
  {rest : List Trace}

theorem Machine.moveTo_pc_ne (m : Machine) (st : State) : (m.moveTo st).pc ≠ .checking rest := by
  unfold Machine.moveTo
  split
  · exact fun h => Pc.noConfusion h
  · split
    all_goals exact fun h => Pc.noConfusion h

theorem Machine.moveTo_applying {st target : State} (h : (m.moveTo st).pc = .applying target) :
    target = st := by
  unfold Machine.moveTo at h
  split at h
  · cases h
  split at h
  · injection h with h
    exact h.symm
  · cases h

theorem Machine.move_pc_ne (m : Machine) : m.move.pc ≠ .applying .objectLocked := by
  have hmoveTo : ∀ st, State.objectLocked ≠ st → (m.moveTo st).pc ≠ .applying .objectLocked :=
    fun st hne h => hne (moveTo_applying h)
  unfold Machine.move
  split
  · split
    · exact hmoveTo _ (by simp)
    · exact hmoveTo _ (by simp)
    · exact fun h => Pc.noConfusion h
  · cases m.consensus .consensus2 <;> exact hmoveTo _ (by simp [onWaitingForConsensus])
  · cases (m.sbac .phase1).state <;> exact hmoveTo _ (by simp [onWaitingForPhase])
  · cases (m.sbac .phase2).state <;> exact hmoveTo _ (by simp [onWaitingForPhase])
  · cases (m.sbac .commit).state <;> exact hmoveTo _ (by simp [onWaitingForPhase])
  · cases m.consensus .consensusCommit <;> exact hmoveTo _ (by simp [onWaitingForConsensus])
  · exact fun h => Pc.noConfusion h

theorem Machine.move_checking (h : m.move.pc = .checking rest) : rest = m.detail.tx.traces := by
  unfold Machine.move at h
  split at h
  · split at h
    · exact absurd h (moveTo_pc_ne m _)
    · exact absurd h (moveTo_pc_ne m _)
    · injection h with h
      exact h.symm
  · exact absurd h (moveTo_pc_ne m _)
  · exact absurd h (moveTo_pc_ne m _)
  · exact absurd h (moveTo_pc_ne m _)
  · exact absurd h (moveTo_pc_ne m _)
  · exact absurd h (moveTo_pc_ne m _)
  · cases h

theorem Machine.ChecksBehind.kept (h : m.ChecksBehind s store)
    (hvalues : ∀ k v, store.values k = some v → store'.values k = some v) (hpc : m'.pc = m.pc)
    (hdetail : m'.detail = m.detail) : m'.ChecksBehind s store' := by
  intro rest hrest
  obtain ⟨behind, hsplit, hall⟩ := h rest (hpc ▸ hrest)
  refine ⟨behind, hdetail ▸ hsplit, ?_⟩
  intro t ht vid hvid hlocal
  obtain ⟨v, hv⟩ := Option.isSome_iff_exists.mp (hall t ht vid hvid hlocal)
  rw [hvalues vid v hv]
  rfl

theorem Machine.ChecksBehind.step (hb : m.ChecksBehind s store)
    (h : m.Steps s f store store' m' act) : m'.ChecksBehind s store' := by
  cases h with
  | consume e rest =>
    intro rest hrest
    split at hrest
    all_goals cases hrest
  | move =>
    intro rest hrest
    refine ⟨[], ?_, by simp⟩
    rw [move_checking hrest, move_detail]
    rfl
  | checked | unusable t rest => exact fun rest hrest => absurd hrest (moveTo_pc_ne m _)
  | check t rest hpc h =>
    intro rest' hrest
    cases hrest
    obtain ⟨behind, hsplit, hall⟩ := hb (t :: rest) hpc
    refine ⟨behind ++ [t], by rw [append_assoc]; exact hsplit, ?_⟩
    intro u hu vid hvid hlocal
    rcases mem_append.mp hu with hu | hu
    · exact hall u hu vid hvid hlocal
    · rw [mem_singleton.mp hu] at hvid
      exact Service.traceUsable_values h hvid hlocal
  | _ => exact fun rest hrest => nomatch hrest

theorem Called.next_ne {d : DetailTx} {t : Transition} {r : Applied} (h : Called s f d store t r) :
    r.next ≠ some .objectLocked := by
  cases h with
  | locked => cases (s.inputObjectsForShard d.tx).2 <;> simp
  | created => cases (s.outputObjectsForShard d.tx).2 <;> simp
  | sent t op decision shards next _ h | triggered t next act _ h =>
    cases t <;> cases h <;> simp
  | waits t h => cases t <;> cases h <;> simp [Transition.target]
  | _ => simp

/-- **A machine is about to lock its inputs** only after it has checked its traces. -/
theorem Machine.Steps.before_lock (h : m.Steps s f store store' m' act)
    (hpc' : m'.pc = .applying .objectLocked) : m.pc = .checking [] := by
  cases h with
  | consume =>
    split at hpc'
    all_goals cases hpc'
  | move => exact absurd hpc' (move_pc_ne m)
  | checked hpc => exact hpc
  | unusable => exact absurd (moveTo_applying hpc') (by simp)
  | applied target next t _ h _ hnext =>
    injection hpc' with hpc'
    rw [hpc'] at hnext
    exact absurd hnext (callTransition_called s f m.detail store t).next_ne
  | _ => cases hpc'

end Checking

section Run
variable {s : Service} {store : Store} {n n' : Node} {ok : Node → Input → Prop}

theorem Node.Steps.checksBehind {input : Input} (h : n.Steps s input n')
    (hn : ∀ i m, n.machines i = some m → m.ChecksBehind s n.store) :
    ∀ i m, n'.machines i = some m → m.ChecksBehind s n'.store := by
  intro i m' hm'
  have hvalues : ∀ k v, n.store.values k = some v → n'.store.values k = some v :=
    fun k v hv => h.values hv
  rcases h.machines hm' with hm | ⟨detail, initial, _, _, hnew⟩ | ⟨m, e, hm, _, heq⟩ |
    ⟨m, f, act, _, hm, hstep⟩
  · exact (hn i m' hm).kept hvalues rfl rfl
  · subst hnew
    exact fun rest hrest => absurd hrest (by simp [Machine.new])
  · subst heq
    exact (hn i m hm).kept hvalues rfl rfl
  · exact (hn i m hm).step hstep

theorem NodeRun.checksBehind (hrun : NodeRun s ok store n) :
    ∀ i m, n.machines i = some m → m.ChecksBehind s n.store := by
  induction hrun with
  | start => exact fun i m hm => absurd hm (by simp [Node.new])
  | step _ _ hstep ih => exact (Node.step_cases hstep).checksBehind ih

/-- **When a machine decides to lock its inputs**, all objects of its traces in the shard exist. -/
theorem NodeRun.objects_exist (hrun : NodeRun s ok store n) {i : Nat} {f : Faults} {m m' : Machine}
    (hm : n.machines i = some m) (hstep : n.step s (.step i f) = some n')
    (hm' : n'.machines i = some m') (hpc : m'.pc = .applying .objectLocked) :
    m'.detail = m.detail ∧ ∀ t ∈ m.detail.tx.traces, ∀ vid ∈ t.versionIDs,
      s.shardForVersionID vid = s.shardID → (n.store.values vid).isSome = true := by
  have hsteps : ∃ act, m.Steps s f n.store n'.store m' act := by
    have hstep : n.stepMachine s i f = some n' := hstep
    unfold Node.stepMachine at hstep
    rw [hm] at hstep
    obtain ⟨⟨st, m1, act⟩, hm1, heq⟩ := Option.bind_eq_some_iff.mp hstep
    cases heq
    have hm' : n.machines.set i m1 i = some m' := hm'
    rw [PMap.set_self] at hm'
    cases hm'
    exact ⟨act, Machine.step_cases hm1⟩
  obtain ⟨act, hsteps⟩ := hsteps
  refine ⟨hsteps.detail, ?_⟩
  obtain ⟨behind, hsplit, hall⟩ := hrun.checksBehind i m hm [] (hsteps.before_lock hpc)
  rw [hsplit, append_nil]
  exact hall

end Run

/-! ## §2. The values of a request. -/

/-- **The checkers see the stored objects**: in every trace and dependency, the value at each
version ID of the shard is the stored one. -/
structure SeesStored (s : Service) (store : Store) (tx : Transaction) : Prop where
  inputs : ∀ t : Trace, t.Within tx.traces → ∀ (i : Nat) (vid : Bytes),
    t.inputObjectVersionIDs[i]? = some vid → s.shardForVersionID vid = s.shardID →
    ∃ value, store.values vid = some value ∧ t.inputObjects[i]? = some value
  references : ∀ t : Trace, t.Within tx.traces → ∀ (i : Nat) (vid : Bytes),
    t.inputReferenceVersionIDs[i]? = some vid → s.shardForVersionID vid = s.shardID →
    ∃ value, store.values vid = some value ∧ t.inputReferences[i]? = some value

structure Filled (s : Service) (tx : Transaction) (g : Bytes → Bytes) : Prop where
  inputs : ∀ t : Trace, t.Within tx.traces → ∀ (i : Nat) (vid : Bytes),
    t.inputObjectVersionIDs[i]? = some vid → s.shardForVersionID vid = s.shardID →
    t.inputObjects[i]? = some (g vid)
  references : ∀ t : Trace, t.Within tx.traces → ∀ (i : Nat) (vid : Bytes),
    t.inputReferenceVersionIDs[i]? = some vid → s.shardForVersionID vid = s.shardID →
    t.inputReferences[i]? = some (g vid)

/-- The values are right about the objects of the shard: they are the stored ones, and the objects
of dependencies are stored. -/
structure Truthful (s : Service) (store : Store) (tx : Transaction) (g : Bytes → Bytes) : Prop where
  values : ∀ t : Trace, t.Within tx.traces → ∀ vid ∈ t.versionIDs,
    s.shardForVersionID vid = s.shardID → ∀ value, store.values vid = some value → g vid = value
  dependencies : ∀ t ∈ tx.traces, ∀ d : Trace, d.Within t.dependencies → ∀ vid ∈ d.versionIDs,
    s.shardForVersionID vid = s.shardID → (store.values vid).isSome = true

/-- The mappings of a request are right about the objects of the shard: those of stored objects
encode their values, and the objects of dependencies are stored. -/
structure MappingsMatch (s : Service) (c : Api.Codec) (store : Store) (tx : Api.Transaction) :
    Prop where
  values : ∀ t : Api.Trace, t.Within tx.traces → ∀ key ∈ t.versionIDs,
    s.shardForVersionID (c.decodeString key) = s.shardID →
    ∀ value, store.values (c.decodeString key) = some value →
      c.marshalString ((tx.mappings key).getD []) = value
  dependencies : ∀ t ∈ tx.traces, ∀ d : Api.Trace, d.Within t.dependencies →
    ∀ key ∈ d.versionIDs, s.shardForVersionID (c.decodeString key) = s.shardID →
    (store.values (c.decodeString key)).isSome = true

section Match
variable {s : Service} {c : Api.Codec} {store : Store} {mappings : PMap Bytes Bytes}

/-- The values filled in for some keys are the stored ones exactly when each is. -/
theorem filled_iff (keys : List Bytes) :
    (∀ (i : Nat) (vid : Bytes), (keys.map c.decodeString)[i]? = some vid →
        s.shardForVersionID vid = s.shardID → ∃ value, store.values vid = some value ∧
          (keys.map (Api.valueOf c mappings))[i]? = some value) ↔
      ∀ key ∈ keys, s.shardForVersionID (c.decodeString key) = s.shardID →
        store.values (c.decodeString key) = some (Api.valueOf c mappings key) := by
  constructor
  · intro h key hkey hlocal
    obtain ⟨i, hi⟩ := mem_iff_getElem?.mp hkey
    obtain ⟨value, hvalue, hfilled⟩ := h i (c.decodeString key) (by simp [hi]) hlocal
    rw [getElem?_map, hi] at hfilled
    injection hfilled with hfilled
    rw [hvalue, hfilled]
  intro h i vid hvid hlocal
  rw [getElem?_map] at hvid
  obtain ⟨key, hkey, hdec⟩ := Option.map_eq_some_iff.mp hvid
  subst hdec
  refine ⟨_, h key (mem_of_getElem? hkey) hlocal, ?_⟩
  rw [getElem?_map, hkey]
  rfl

/-- The checkers see the stored objects exactly when every value of the request is right. -/
theorem seesStored_iff {a : Api.Transaction} {tx : Transaction} (ha : a.toSBAC c = .ok tx) :
    SeesStored s store tx ↔ ∀ t : Api.Trace, t.Within a.traces → ∀ key ∈ t.versionIDs,
      s.shardForVersionID (c.decodeString key) = s.shardID →
        store.values (c.decodeString key) = some (Api.valueOf c a.mappings key) := by
  constructor
  · intro h t ht key hkey
    have hwithin : (t.toSBAC c a.mappings).Within tx.traces :=
      (Api.Transaction.within_toSBAC ha).mpr ⟨t, ht, rfl⟩
    have hins := h.inputs _ hwithin
    have hrefs := h.references _ hwithin
    rw [t.toSBAC_inputs.1, t.toSBAC_inputs.2] at hins
    rw [t.toSBAC_references.1, t.toSBAC_references.2] at hrefs
    rcases mem_append.mp hkey with hkey | hkey
    · exact (filled_iff _).mp hins key hkey
    · exact (filled_iff _).mp hrefs key hkey
  intro h
  constructor
  · intro d hd
    obtain ⟨t, ht, heq⟩ := (Api.Transaction.within_toSBAC ha).mp hd
    rw [← heq, t.toSBAC_inputs.1, t.toSBAC_inputs.2]
    exact (filled_iff _).mpr fun key hkey => h t ht key (mem_append_left _ hkey)
  intro d hd
  obtain ⟨t, ht, heq⟩ := (Api.Transaction.within_toSBAC ha).mp hd
  rw [← heq, t.toSBAC_references.1, t.toSBAC_references.2]
  exact (filled_iff _).mpr fun key hkey => h t ht key (mem_append_right _ hkey)

end Match

section Lock
variable {s : Service} {c : Api.Codec} {store : Store} {tx : Transaction} {a : Api.Transaction}

theorem SeesStored.filled (h : SeesStored s store tx) :
    Filled s tx (fun vid => (store.values vid).getD []) := by
  constructor
  · intro t ht i vid hvid hlocal
    obtain ⟨value, hvalue, hseen⟩ := h.inputs t ht i vid hvid hlocal
    rw [hseen, hvalue]
    rfl
  intro t ht i vid hvid hlocal
  obtain ⟨value, hvalue, hseen⟩ := h.references t ht i vid hvid hlocal
  rw [hseen, hvalue]
  rfl

theorem SeesStored.stored (h : SeesStored s store tx) {t : Trace} (ht : t.Within tx.traces)
    {vid : Bytes} (hvid : vid ∈ t.versionIDs) (hlocal : s.shardForVersionID vid = s.shardID) :
    (store.values vid).isSome = true := by
  rcases mem_append.mp hvid with hvid | hvid
  · obtain ⟨i, hi⟩ := mem_iff_getElem?.mp hvid
    obtain ⟨value, hvalue, _⟩ := h.inputs t ht i vid hi hlocal
    rw [hvalue]
    rfl
  obtain ⟨i, hi⟩ := mem_iff_getElem?.mp hvid
  obtain ⟨value, hvalue, _⟩ := h.references t ht i vid hi hlocal
  rw [hvalue]
  rfl

/-- Where the objects of the traces exist, all are stored if those of the dependencies are. -/
theorem Truthful.stored {g : Bytes → Bytes} (h : Truthful s store tx g)
    (hexist : ∀ t ∈ tx.traces, ∀ vid ∈ t.versionIDs, s.shardForVersionID vid = s.shardID →
      (store.values vid).isSome = true) {t : Trace} (ht : t.Within tx.traces) {vid : Bytes}
    (hvid : vid ∈ t.versionIDs) (hlocal : s.shardForVersionID vid = s.shardID) :
    store.values vid = some (g vid) := by
  have hsome : (store.values vid).isSome = true := by
    cases ht with
    | here ht => exact hexist t ht vid hvid hlocal
    | under ht hd => exact h.dependencies _ ht t hd vid hvid hlocal
  obtain ⟨value, hvalue⟩ := Option.isSome_iff_exists.mp hsome
  rw [hvalue, h.values t ht vid hvid hlocal value hvalue]

/-- The values of a transaction are seen as stored exactly when they are right. -/
theorem seesStored_iff_truthful
    (hexist : ∀ t ∈ tx.traces, ∀ vid ∈ t.versionIDs, s.shardForVersionID vid = s.shardID →
      (store.values vid).isSome = true) :
    SeesStored s store tx ↔ ∃ g, Filled s tx g ∧ Truthful s store tx g := by
  constructor
  · intro h
    refine ⟨_, h.filled, ?_, ?_⟩
    · intro t ht vid hvid hlocal value hvalue
      rw [hvalue]
      rfl
    · intro t ht d hd vid hvid hlocal
      exact h.stored (.under ht hd) hvid hlocal
  rintro ⟨g, hfilled, htruthful⟩
  constructor
  · intro t ht i vid hvid hlocal
    have hmem : vid ∈ t.versionIDs := mem_append_left _ (mem_of_getElem? hvid)
    exact ⟨g vid, htruthful.stored hexist ht hmem hlocal, hfilled.inputs t ht i vid hvid hlocal⟩
  intro t ht i vid hvid hlocal
  have hmem : vid ∈ t.versionIDs := mem_append_right _ (mem_of_getElem? hvid)
  exact ⟨g vid, htruthful.stored hexist ht hmem hlocal,
    hfilled.references t ht i vid hvid hlocal⟩

/-- The values of a request are seen as stored exactly when its mappings are right. -/
theorem seesStored_iff_mappings (ha : a.toSBAC c = .ok tx)
    (hexist : ∀ t ∈ tx.traces, ∀ vid ∈ t.versionIDs, s.shardForVersionID vid = s.shardID →
      (store.values vid).isSome = true) : SeesStored s store tx ↔ MappingsMatch s c store a := by
  rw [seesStored_iff ha]
  constructor
  · intro h
    constructor
    · intro t ht key hkey hlocal value hvalue
      have hfilled := h t ht key hkey hlocal
      rw [hvalue] at hfilled
      injection hfilled with hfilled
      exact hfilled.symm
    intro t ht d hd key hkey hlocal
    rw [h d (.under ht hd) key hkey hlocal]
    rfl
  intro h t ht key hkey hlocal
  have hsome : (store.values (c.decodeString key)).isSome = true := by
    cases ht with
    | here ht =>
      -- a trace of the transaction: its objects have been looked up
      refine hexist (t.toSBAC c a.mappings) ?_ _ ?_ hlocal
      · rw [Api.Transaction.toSBAC_traces ha]
        exact mem_map_of_mem ht
      unfold Trace.versionIDs
      rw [t.toSBAC_inputs.1, t.toSBAC_references.1, ← map_append]
      exact mem_map_of_mem hkey
    | under ht hd => exact h.dependencies _ ht t hd key hkey hlocal
  obtain ⟨value, hvalue⟩ := Option.isSome_iff_exists.mp hsome
  have hright := h.values t ht key hkey hlocal value hvalue
  rw [hvalue, ← hright]
  rfl

end Lock

/-- **Checkers see the objects a transaction consumes exactly when its sender has told the truth**:
whenever a machine decides to lock its inputs, the values it lists are the stored ones if and only
if it lists one for each object and those of stored objects are right. For a transaction of the API,
that is a matter of its mappings. -/
theorem checkers_see_stored_iff {s : Service} {store : Store} {n n' : Node} {i : Nat} {f : Faults}
    {m m' : Machine} (hrun : NodeRun s (fun _ _ => True) store n) (hm : n.machines i = some m)
    (hstep : n.step s (.step i f) = some n') (hm' : n'.machines i = some m')
    (hpc : m'.pc = .applying .objectLocked) :
    (SeesStored s n.store m.detail.tx ↔
        ∃ g, Filled s m.detail.tx g ∧ Truthful s n.store m.detail.tx g) ∧
      ∀ (c : Api.Codec) (a : Api.Transaction), a.toSBAC c = .ok m.detail.tx →
        (SeesStored s n.store m.detail.tx ↔ MappingsMatch s c n.store a) := by
  obtain ⟨_, hexist⟩ := hrun.objects_exist hm hstep hm' hpc
  exact ⟨seesStored_iff_truthful hexist, fun c a ha => seesStored_iff_mappings ha hexist⟩

/-! ## §3. A request about one object. -/

/-- Names are version IDs, and an encoded string stands in quotation marks. -/
def quoting : Api.Codec := ⟨fun key => key, fun value => [34] ++ value ++ [34]⟩

def quotedStore : Store :=
  { Store.empty with
    values := PMap.empty.set [1] [34, 9, 34]
    statuses := PMap.empty.set [1] .active }

def replaceRequest (value : Bytes) : Api.Transaction :=
  ⟨PMap.empty.set [1] value, [.mk [7] [] [[1]] [] [⟨[], [5]⟩] [] [8] []]⟩

def replaceTx (value : Bytes) : Transaction :=
  ⟨[.mk [7] [8] [[1]] [] [⟨[], [5]⟩] [] [] [] [[34] ++ value ++ [34]] []]⟩

theorem replaceRequest_toSBAC (value : Bytes) :
    (replaceRequest value).toSBAC quoting = .ok (replaceTx value) := rfl

/-- The shard agrees on the request, whose machine decides to lock the object. -/
theorem replace_run (value : Bytes) : ∃ n n' m m',
    NodeRun (pairService true) (fun _ _ => True) quotedStore n ∧ n.machines 0 = some m ∧
      n.step (pairService true) (.step 0 ⟨false, false⟩) = some n' ∧ n'.machines 0 = some m' ∧
      m'.pc = .applying .objectLocked ∧ m.detail.tx = replaceTx value ∧ n.store = quotedStore := by
  have hinputs : (Node.new quotedStore).stepAll (pairService true)
      (agreedInputs 0 (replaceTx value) 3) = some _ := rfl
  exact ⟨_, _, _, _, NodeRun.stepAll .start (fun _ _ _ => trivial) hinputs, rfl, rfl, rfl, rfl, rfl,
    rfl⟩

/-- The value the client claims is the stored one, and the checkers see it. -/
theorem checkers_see_stored_replaced :
    SeesStored (pairService true) quotedStore (replaceTx [9]) := by
  obtain ⟨n, n', m, m', hrun, hm, hstep, hm', hpc, htx, hstore⟩ := replace_run [9]
  have ha : (replaceRequest [9]).toSBAC quoting = .ok m.detail.tx := by
    rw [htx]
    exact replaceRequest_toSBAC [9]
  rw [← htx, ← hstore]
  refine ((checkers_see_stored_iff hrun hm hstep hm' hpc).2 quoting _ ha).mpr ?_
  rw [hstore]
  have hroot : ∀ t ∈ (replaceRequest [9]).traces, t.versionIDs = [[1]] ∧ t.dependencies = [] := by
    intro t ht
    rw [mem_singleton.mp ht]
    exact ⟨rfl, rfl⟩
  constructor
  · intro t ht key hkey _ value hvalue
    cases ht with
    | here ht =>
      rw [(hroot t ht).1] at hkey
      rw [mem_singleton.mp hkey] at hvalue ⊢
      exact Option.some.inj hvalue
    | under ht hd =>
      rw [(hroot _ ht).2] at hd
      exact absurd hd Forest.not_within_nil
  intro t ht d hd
  rw [(hroot t ht).2] at hd
  exact absurd hd Forest.not_within_nil

/-- **The checkers see what the client says**: object `[1]` holds `[9]`, the client says `[8]`. The
checker is run on `[8]` and accepts, and the machine goes on to lock the object. -/
theorem checkers_see_other_value :
    let checker : Checker.Checker := ⟨[7], [8], fun inputs _ _ _ _ _ => inputs = [[34, 8, 34]]⟩
    Checker.check (Checker.newCheckers [checker]) (replaceTx [8]) = .ok true ∧
      (replaceRequest [8]).toSBAC quoting = .ok (replaceTx [8]) ∧
      ∃ n n' m m', NodeRun (pairService true) (fun _ _ => True) quotedStore n ∧
        n.machines 0 = some m ∧ n.step (pairService true) (.step 0 ⟨false, false⟩) = some n' ∧
        n'.machines 0 = some m' ∧ m'.pc = .applying .objectLocked ∧
        m.detail.tx = replaceTx [8] ∧ ¬ SeesStored (pairService true) n.store m.detail.tx := by
  intro checker
  refine ⟨rfl, replaceRequest_toSBAC [8], ?_⟩
  obtain ⟨n, n', m, m', hrun, hm, hstep, hm', hpc, htx, hstore⟩ := replace_run [8]
  refine ⟨n, n', m, m', hrun, hm, hstep, hm', hpc, htx, ?_⟩
  rw [htx, hstore]
  intro h
  obtain ⟨value, hvalue, hseen⟩ := h.inputs _ (.here mem_cons_self) 0 [1] rfl (by decide)
  rw [← hvalue] at hseen
  exact absurd hseen (by decide)

end Chainspace.Sbac
