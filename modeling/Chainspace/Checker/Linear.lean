/-
  Chainspace.Checker.Linear — what the two passes of a check decide.

  `typeCheck` threads one map through a recursion; its verdict is a property of the forest that
  speaks of no order. `run` hands every trace of the forest to its own checker once, and its answer
  does not depend on which of the checks finishes first.
-/
import Chainspace.Checker.Check
import Mathlib.Data.List.Perm.Basic

namespace Chainspace.Checker

open Chainspace.Lib Chainspace.Sbac List

/-! ## §1. `typeCheck` as a loop. -/

/-- What `typeCheck` does for a trace after its dependencies. -/
def visit (ids : IDMap) (t : Trace) : Except CheckError IDMap :=
  if t.contractID = [] then .error .missingContractID
  else if t.procedure = [] then .error .missingProcedure
  else if t.outputObjects.length ≠ t.inputObjects.length then
    .error (.outputs t.contractID t.procedure t.inputObjects.length t.outputObjects.length)
  else do
    let ids ← t.inputObjectVersionIDs.foldlM (useInput t.contractID t.procedure) ids
    t.inputReferenceVersionIDs.foldlM (useReference t.contractID t.procedure) ids

mutual

/-- The traces of a forest as they are visited: each after its dependencies. -/
def visits : List Trace → List Trace
  | [] => []
  | t :: ts => visitsOf t ++ visits ts

def visitsOf : Trace → List Trace
  | .mk contractID procedure inputs references outputs parameters returns dependencies inputObjects
      inputReferences =>
      visits dependencies ++ [.mk contractID procedure inputs references outputs parameters returns
        dependencies inputObjects inputReferences]

end

mutual

theorem typeCheck_eq : ∀ (ts : List Trace) (ids : IDMap),
    typeCheck ids ts = (visits ts).foldlM visit ids
  | [], _ => rfl
  | t :: ts, ids => by
      rw [typeCheck, visits, List.foldlM_append, typeCheckTrace_eq t]
      exact congrArg _ (funext fun ids => typeCheck_eq ts ids)

theorem typeCheckTrace_eq : ∀ (t : Trace) (ids : IDMap),
    typeCheckTrace ids t = (visitsOf t).foldlM visit ids
  | .mk c p ins refs outs ps rs deps ios irs, ids => by
      rw [typeCheckTrace, visitsOf, List.foldlM_append, typeCheck_eq deps]
      refine congrArg _ (funext fun ids => ?_)
      rw [List.foldlM_cons]
      exact (bind_pure _).symm

end

mutual

theorem visits_perm : ∀ ts : List Trace, (visits ts).Perm (nodes ts)
  | [] => .nil
  | t :: ts => by
      rw [visits, nodes]
      exact (visitsOf_perm t).append (visits_perm ts)

theorem visitsOf_perm : ∀ t : Trace, (visitsOf t).Perm (nodesOf t)
  | .mk _ _ _ _ _ _ _ deps _ _ => by
      rw [visitsOf, nodesOf]
      exact List.perm_append_comm.trans ((visits_perm deps).cons _)

end

/-! ## §2. Linear transactions. -/

/-- No version ID is an input twice, and none is an input and a reference. -/
def Apart (inputs references : List Bytes) : Prop :=
  inputs.Nodup ∧ ∀ v ∈ inputs, v ∉ references

def inputsOf (ts : List Trace) : List Bytes := ts.flatMap Trace.inputObjectVersionIDs

def referencesOf (ts : List Trace) : List Bytes := ts.flatMap Trace.inputReferenceVersionIDs

/-- The traces name their contract and procedure and have an output for each input. -/
def Shaped (ts : List Trace) : Prop :=
  ∀ t ∈ ts, t.contractID ≠ [] ∧ t.procedure ≠ [] ∧
    t.outputObjects.length = t.inputObjects.length

/-- The traces form a linear transaction. -/
def Linear (ts : List Trace) : Prop := Shaped ts ∧ Apart (inputsOf ts) (referencesOf ts)

theorem Apart.mono {ins ins' refs refs' : List Bytes} (h : Apart ins' refs')
    (hins : ins.Sublist ins') (hrefs : refs ⊆ refs') : Apart ins refs := by
  refine ⟨h.1.sublist hins, ?_⟩
  intro v hv hr
  exact h.2 v (hins.subset hv) (hrefs hr)

theorem Linear.of_append {ts ts' : List Trace} (h : Linear (ts ++ ts')) : Linear ts := by
  obtain ⟨hshaped, hapart⟩ := h
  simp only [inputsOf, referencesOf, flatMap_append] at hapart
  exact ⟨fun t ht => hshaped t (mem_append_left _ ht),
    hapart.mono (sublist_append_left _ _) (subset_append_left _ _)⟩

theorem Linear.perm {ts ts' : List Trace} (h : ts.Perm ts') (hlinear : Linear ts) : Linear ts' := by
  obtain ⟨hshaped, hnodup, hapart⟩ := hlinear
  have hins : (inputsOf ts).Perm (inputsOf ts') := h.flatMap_right _
  have hrefs : (referencesOf ts).Perm (referencesOf ts') := h.flatMap_right _
  refine ⟨fun t ht => hshaped t (h.mem_iff.mpr ht), hins.nodup_iff.mp hnodup, ?_⟩
  intro v hv hr
  exact hapart v (hins.mem_iff.mpr hv) (hrefs.mem_iff.mpr hr)

/-- The map of `typeCheck` after the given inputs and references. -/
def Uses (inputs references : List Bytes) (ids : IDMap) : Prop :=
  (∀ v, v ∈ inputs ↔ ∃ c, ids v = some ⟨.inactive, c⟩) ∧
    ∀ v, v ∈ references ↔ ∃ c, ids v = some ⟨.active, c⟩

section Loops
variable {ins refs : List Bytes} {ids : IDMap} {c p : Bytes}

theorem useInput_outcome (h : Uses ins refs ids ∧ Apart ins refs) (v : Bytes) :
    Outcome (fun ids' => Uses (ins ++ [v]) refs ids' ∧ Apart (ins ++ [v]) refs)
      (fun _ => ¬ Apart (ins ++ [v]) refs) (useInput c p ids v) := by
  obtain ⟨⟨hins, hrefs⟩, hnodup, hapart⟩ := h
  unfold useInput
  split
  next c' hv =>
    -- the ID was an input before
    intro hnew
    have hmem : v ∈ ins := (hins v).mpr ⟨c', hv⟩
    exact absurd hnew.1 (by simp [nodup_append, hmem])
  next c' hv =>
    intro hnew
    exact hnew.2 v (by simp) ((hrefs v).mpr ⟨c', hv⟩)
  next hv =>
    have hins' : v ∉ ins := by simp [hins, hv]
    have hrefs' : v ∉ refs := by simp [hrefs, hv]
    refine ⟨⟨?_, ?_⟩, ?_, ?_⟩
    · intro u
      by_cases hu : u = v
      · simp [hu, PMap.set]
      · simp [hu, PMap.set, hins]
    · intro u
      by_cases hu : u = v
      · simp [hu, PMap.set, hrefs']
      · simp [hu, PMap.set, hrefs]
    · refine nodup_append.mpr ⟨hnodup, by simp, ?_⟩
      intro u hu w hw heq
      exact hins' (mem_singleton.mp hw ▸ heq ▸ hu)
    · exact forall_mem_append.mpr ⟨hapart, forall_mem_singleton.mpr hrefs'⟩

theorem useReference_outcome (h : Uses ins refs ids ∧ Apart ins refs) (v : Bytes) :
    Outcome (fun ids' => Uses ins (refs ++ [v]) ids' ∧ Apart ins (refs ++ [v]))
      (fun _ => ¬ Apart ins (refs ++ [v])) (useReference c p ids v) := by
  obtain ⟨⟨hins, hrefs⟩, hnodup, hapart⟩ := h
  unfold useReference
  have happ : v ∉ ins → Apart ins (refs ++ [v]) := by
    intro hv
    refine ⟨hnodup, ?_⟩
    intro u hu
    have hne : u ≠ v := fun heq => hv (heq ▸ hu)
    simp [hapart u hu, hne]
  split
  next c' hv =>
    intro hnew
    exact hnew.2 v ((hins v).mpr ⟨c', hv⟩) (by simp)
  next c' hv =>
    -- a second reference leaves the map as it is
    refine ⟨⟨hins, ?_⟩, happ (by simp [hins, hv])⟩
    intro u
    have hmem : v ∈ refs := (hrefs v).mpr ⟨c', hv⟩
    rw [← hrefs, mem_append, mem_singleton]
    constructor
    · rintro (hu | hu)
      · exact hu
      · exact hu ▸ hmem
    · exact .inl
  next hv =>
    have hins' : v ∉ ins := by simp [hins, hv]
    refine ⟨⟨?_, ?_⟩, happ hins'⟩
    · intro u
      by_cases hu : u = v
      · simp [hu, PMap.set, hins']
      · simp [hu, PMap.set, hins]
    intro u
    by_cases hu : u = v
    · simp [hu, PMap.set]
    · simp [hu, PMap.set, hrefs]

end Loops

/-- A visit fails exactly when the trace spoils the linearity of those before it. -/
theorem visit_outcome (ts : List Trace) (t : Trace) (ids : IDMap)
    (h : Uses (inputsOf ts) (referencesOf ts) ids ∧ Linear ts) :
    Outcome (fun ids' => Uses (inputsOf (ts ++ [t])) (referencesOf (ts ++ [t])) ids' ∧
        Linear (ts ++ [t]))
      (fun _ => ¬ Linear (ts ++ [t])) (visit ids t) := by
  obtain ⟨huses, hshaped, hapart⟩ := h
  have hins : inputsOf (ts ++ [t]) = inputsOf ts ++ t.inputObjectVersionIDs := by
    simp [inputsOf]
  have hrefs : referencesOf (ts ++ [t]) = referencesOf ts ++ t.inputReferenceVersionIDs := by
    simp [referencesOf]
  have hlast : t ∈ ts ++ [t] := by simp
  unfold visit
  split
  next hc => exact fun hnew => (hnew.1 t hlast).1 hc
  next hc =>
    split
    next hp => exact fun hnew => (hnew.1 t hlast).2.1 hp
    next hp =>
      split
      next hlen => exact fun hnew => hlen (hnew.1 t hlast).2.2
      next hlen =>
        have hinputs := foldlM_outcome
          (fun ins ids => Uses ins (referencesOf ts) ids ∧ Apart ins (referencesOf ts))
          (fun ins => Apart ins (referencesOf ts))
          (fun pre post hR => hR.mono (sublist_append_left pre post) (List.Subset.refl _))
          (fun ins v ids hS => useInput_outcome (c := t.contractID) (p := t.procedure) hS v)
          t.inputObjectVersionIDs (inputsOf ts) ⟨huses, hapart⟩
        refine Outcome.bind (Outcome.intro (fun _ => hinputs.of_ok) ?_) ?_
        · intro e he hnew
          rw [Linear, hins, hrefs] at hnew
          exact hinputs.of_error he (hnew.2.mono (List.Sublist.refl _) (subset_append_left _ _))
        intro ids' _ hids'
        have hreferences := foldlM_outcome
          (fun refs ids => Uses (inputsOf ts ++ t.inputObjectVersionIDs) refs ids ∧
            Apart (inputsOf ts ++ t.inputObjectVersionIDs) refs)
          (Apart (inputsOf ts ++ t.inputObjectVersionIDs))
          (fun pre post hR => hR.mono (List.Sublist.refl _) (subset_append_left pre post))
          (fun refs v ids hS => useReference_outcome (c := t.contractID) (p := t.procedure) hS v)
          t.inputReferenceVersionIDs (referencesOf ts) hids'
        rw [Linear, hins, hrefs]
        refine Outcome.intro ?_ ?_
        · intro b hb
          obtain ⟨huses', hapart'⟩ := hreferences.of_ok hb
          refine ⟨huses', ?_, hapart'⟩
          exact forall_mem_append.mpr ⟨hshaped,
            forall_mem_singleton.mpr ⟨hc, hp, Decidable.not_not.mp hlen⟩⟩
        · intro e he hnew
          exact hreferences.of_error he hnew.2

theorem typeCheck_ok_iff (ts : List Trace) :
    (∃ ids, typeCheck .empty ts = .ok ids) ↔ Linear (nodes ts) := by
  have hloop := foldlM_outcome
    (fun ts ids => Uses (inputsOf ts) (referencesOf ts) ids ∧ Linear ts) Linear
    (fun _ _ => Linear.of_append) visit_outcome (visits ts) []
    (b := PMap.empty) ⟨⟨by simp [inputsOf, PMap.empty], by simp [referencesOf, PMap.empty]⟩,
      by simp [Shaped], by simp [Apart, inputsOf]⟩
  rw [typeCheck_eq]
  constructor
  · rintro ⟨ids, hids⟩
    exact (hloop.of_ok hids).2.perm (visits_perm ts)
  intro h
  cases hrun : (visits ts).foldlM visit PMap.empty with
  | ok ids => exact ⟨ids, rfl⟩
  | error => exact absurd (h.perm (visits_perm ts).symm) (hloop.of_error hrun)

def alone (t : Trace) : Trace :=
  .mk t.contractID t.procedure t.inputObjectVersionIDs t.inputReferenceVersionIDs t.outputObjects
    t.parameters t.returns [] t.inputObjects t.inputReferences

theorem linear_alone {ts : List Trace} : Linear (ts.map alone) ↔ Linear ts := by
  have hins : inputsOf (ts.map alone) = inputsOf ts := by
    rw [inputsOf, flatMap_map]
    rfl
  have hrefs : referencesOf (ts.map alone) = referencesOf ts := by
    rw [referencesOf, flatMap_map]
    rfl
  have hshaped : Shaped (ts.map alone) ↔ Shaped ts := by
    unfold Shaped
    rw [forall_mem_map]
    rfl
  rw [Linear, Linear, hins, hrefs, hshaped]

/-- **`typeCheck` accepts exactly the linear transactions**: every trace, at any depth, names a
contract and a procedure and has as many outputs as inputs; no version ID is an input twice; none is
both an input and a reference. Two forests of the same traces, in whatever order and nesting, get
the same verdict. -/
theorem typeCheck_accepts_linear (ts : List Trace) : ((∃ ids, typeCheck .empty ts = .ok ids) ↔
      (∀ t : Trace, t.Within ts → t.contractID ≠ [] ∧ t.procedure ≠ [] ∧
        t.outputObjects.length = t.inputObjects.length) ∧
      ((nodes ts).flatMap Trace.inputObjectVersionIDs).Nodup ∧
      ¬ ∃ v, (∃ t : Trace, t.Within ts ∧ v ∈ t.inputObjectVersionIDs) ∧
        ∃ t : Trace, t.Within ts ∧ v ∈ t.inputReferenceVersionIDs) ∧
    ∀ ts', ((nodes ts).map alone).Perm ((nodes ts').map alone) →
      ((∃ ids, typeCheck .empty ts = .ok ids) ↔ ∃ ids, typeCheck .empty ts' = .ok ids) := by
  constructor
  · rw [typeCheck_ok_iff]
    simp only [Linear, Shaped, Apart, inputsOf, referencesOf, mem_flatMap, mem_nodes,
      not_exists, not_and]
  intro ts' hperm
  rw [typeCheck_ok_iff, typeCheck_ok_iff, ← linear_alone, ← @linear_alone (nodes ts')]
  exact ⟨Linear.perm hperm, Linear.perm hperm.symm⟩

/-! ## §3. Every trace is checked. -/

/-- The checks of `run` report in the order in which they finish; `Wait` returns the first error. -/
def wait : List (Checker × Trace) → Option Bytes
  | [] => none
  | pair :: order =>
      if pair.1.passes pair.2 then wait order else some (text "check failed")

theorem wait_eq_none {order : List (Checker × Trace)} :
    wait order = none ↔ ∀ pair ∈ order, pair.1.passes pair.2 = true := by
  induction order with
  | nil => simp [wait]
  | cons pair order ih =>
    rw [wait]
    by_cases hpass : pair.1.passes pair.2 = true
    · simp [hpass, ih]
    · simp [hpass]

/-- **Every trace of a transaction is checked**: `run` fails exactly when a trace of the forest has
no checker. Otherwise it starts one check for each trace, by the checker of its contract and
procedure on its own values; and whichever way they finish, the answer is whether all pass. -/
theorem run_checks_every_trace (checkers : CheckersMap) (tx : Transaction) :
    ((∃ e, run checkers tx = .error e) ↔ ∃ t : Trace, t.Within tx.traces ∧ checkers.find t = none) ∧
    ((∀ t : Trace, t.Within tx.traces → checkers.find t ≠ none) →
      ∃ pairs, aggregate checkers tx.traces = .ok pairs ∧ pairs.map Prod.snd = nodes tx.traces ∧
        (∀ pair ∈ pairs, checkers.find pair.2 = some pair.1) ∧
        ∀ order, order.Perm pairs → run checkers tx = .ok (wait order).isNone ∧
          ((wait order).isNone = true ↔ ∀ pair ∈ pairs, pair.1.check pair.2.inputObjects
            pair.2.inputReferences pair.2.parameters pair.2.outputObjects pair.2.returns
            pair.2.dependencies = true)) := by
  have hpairs := checkers.pairs_outcome (nodes tx.traces)
  rw [← aggregate_eq] at hpairs
  unfold run
  cases hrun : aggregate checkers tx.traces with
  | error e =>
    obtain ⟨t, ht, hnone⟩ := hpairs.of_error hrun
    have hwithin := mem_nodes.mp ht
    refine ⟨⟨fun _ => ⟨t, hwithin, hnone⟩, fun _ => ⟨e, rfl⟩⟩, ?_⟩
    intro h
    exact absurd hnone (h t hwithin)
  | ok pairs =>
    obtain ⟨htraces, hfind⟩ := hpairs.of_ok hrun
    constructor
    · constructor
      · rintro ⟨e, he⟩
        cases he
      rintro ⟨t, ht, hnone⟩
      rw [← mem_nodes, ← htraces] at ht
      obtain ⟨pair, hpair, heq⟩ := mem_map.mp ht
      rw [← heq, hfind pair hpair] at hnone
      cases hnone
    intro _
    refine ⟨pairs, rfl, htraces, hfind, ?_⟩
    intro order hperm
    have hall : (wait order).isNone = true ↔ ∀ pair ∈ pairs, pair.1.passes pair.2 = true := by
      rw [Option.isNone_iff_eq_none, wait_eq_none]
      exact ⟨fun h pair hp => h pair (hperm.mem_iff.mpr hp),
        fun h pair hp => h pair (hperm.mem_iff.mp hp)⟩
    refine ⟨congrArg Except.ok ?_, hall⟩
    rw [Bool.eq_iff_iff, hall, all_eq_true]

end Chainspace.Checker
