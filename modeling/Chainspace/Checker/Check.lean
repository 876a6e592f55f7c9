/-
  Chainspace.Checker.Check — the checker service of a node (`checker/typecheck.go`,
  `checker/run.go`, `checker/checker.go`).

  A transaction is checked in two passes over its traces and their dependencies: the version IDs are
  used linearly (`typeCheck`), and the contract of every trace has a checker for its procedure,
  which accepts it (`run`). The answer is signed whatever the checkers say.
-/
import Chainspace.Lib.Loop
import Chainspace.Sbac.Types

set_option linter.dupNamespace false

namespace Chainspace.Checker

open Chainspace.Lib Chainspace.Sbac

/-! ## §1. Type check (`typecheck.go`). -/

/-- What a version ID has been used for: `inactive` after it was an input. -/
inductive IDState
  | active
  | inactive
  deriving DecidableEq, Repr

/-- The state of a version ID, and the contract that used it first. -/
structure StateData where
  state : IDState
  contract : Bytes
  deriving DecidableEq, Repr

/-- `ids` of `typeCheck`. -/
abbrev IDMap := PMap Bytes StateData

/-- What a check fails with, and the data in the text of the error. -/
inductive CheckError
  | missingContractID
  | missingProcedure
  | outputs (contractID procedure : Bytes) (expected found : Nat)
  | inactiveInput (contractID procedure vid : Bytes)
  | referencedInput (contractID procedure vid contract : Bytes)
  | inactiveReference (contractID procedure vid : Bytes)
  | unknownContract (contractID : Bytes)
  | unknownProcedure (procedure contractID : Bytes)
  deriving DecidableEq, Repr

/-- A digit of base64. -/
def b64Digit (n : Nat) : UInt8 :=
  if n < 26 then .ofNat (n + 65)
  else if n < 52 then .ofNat (n + 71)
  else if n < 62 then .ofNat (n - 4)
  else if n = 62 then 43 else 47

/-- `base64.StdEncoding.EncodeToString`. -/
def b64 : Bytes → Bytes
  | [] => []
  | [a] => [b64Digit (a.toNat / 4), b64Digit (a.toNat % 4 * 16), 61, 61]
  | [a, b] => [b64Digit (a.toNat / 4), b64Digit (a.toNat % 4 * 16 + b.toNat / 16),
      b64Digit (b.toNat % 16 * 4), 61]
  | a :: b :: c :: rest => b64Digit (a.toNat / 4) :: b64Digit (a.toNat % 4 * 16 + b.toNat / 16) ::
      b64Digit (b.toNat % 16 * 4 + c.toNat / 64) :: b64Digit (c.toNat % 64) :: b64 rest

/-- The texts of the errors. -/
def CheckError.message : CheckError → Bytes
  | .missingContractID => text "missing contractid"
  | .missingProcedure => text "missing procedure"
  | .outputs c p expected found => c ++ text "." ++ p ++ text "() expect " ++
      text (toString expected) ++ text " outputs, have " ++ text (toString found)
  | .inactiveInput c p vid => c ++ text "." ++ p ++ text " using inactive versionid(" ++ b64 vid ++
      text ") as input"
  | .referencedInput c p vid contract => c ++ text "." ++ p ++ text " using versionid(" ++
      b64 vid ++ text ") previously reference by another contract(" ++ contract ++ text ")"
  | .inactiveReference c p vid => c ++ text "." ++ p ++ text " using inactive versionid(" ++
      b64 vid ++ text ") as reference"
  | .unknownContract c => text "checker error [err=unknown contract with ID: " ++ c ++ text "]"
  | .unknownProcedure p c => text "checker error [err=unknown procedure " ++ p ++
      text " for contract with ID: " ++ c ++ text "]"

/-- The loop of `typeCheck` over the inputs of a trace. An ID that was seen has one of the two
states, so the assignment after the two tests is never reached. -/
def useInput (contractID procedure : Bytes) (ids : IDMap) (v : Bytes) : Except CheckError IDMap :=
  match ids v with
  | some ⟨.inactive, _⟩ => .error (.inactiveInput contractID procedure v)
  | some ⟨.active, contract⟩ => .error (.referencedInput contractID procedure v contract)
  | none => .ok (ids.set v ⟨.inactive, contractID⟩)

/-- The loop of `typeCheck` over the references of a trace, for one of them. -/
def useReference (contractID procedure : Bytes) (ids : IDMap) (v : Bytes) :
    Except CheckError IDMap :=
  match ids v with
  | some ⟨.inactive, _⟩ => .error (.inactiveReference contractID procedure v)
  | some ⟨.active, _⟩ => .ok ids
  | none => .ok (ids.set v ⟨.active, contractID⟩)

mutual

/-- `typeCheck`: the traces in order, with one map of version IDs. -/
def typeCheck (ids : IDMap) : List Trace → Except CheckError IDMap
  | [] => .ok ids
  | t :: ts => do
      let ids ← typeCheckTrace ids t
      typeCheck ids ts

/-- A trace, after its dependencies. -/
def typeCheckTrace (ids : IDMap) : Trace → Except CheckError IDMap
  | .mk contractID procedure inputs references outputs _ _ dependencies inputObjects _ => do
      let ids ← typeCheck ids dependencies
      if contractID = [] then .error .missingContractID
      else if procedure = [] then .error .missingProcedure
      else if outputs.length ≠ inputObjects.length then
        .error (.outputs contractID procedure inputObjects.length outputs.length)
      else do
        let ids ← inputs.foldlM (useInput contractID procedure) ids
        references.foldlM (useReference contractID procedure) ids

end

/-! ## §2. Contracts (`run.go`). -/

/-- `Checker`: the check of one procedure of a contract. -/
structure Checker where
  contractID : Bytes
  name : Bytes
  check : (inputs refInputs parameters : List Bytes) → (outputObjects : List OutputObject) →
    (returns : List Bytes) → (dependencies : List Trace) → Bool

/-- The checker, run on what a trace holds. -/
def Checker.passes (c : Checker) (t : Trace) : Bool :=
  c.check t.inputObjects t.inputReferences t.parameters t.outputObjects t.returns t.dependencies

/-- The checkers by contract and procedure. -/
abbrev CheckersMap := PMap Bytes (PMap Bytes Checker)

/-- The checker of a trace. -/
def CheckersMap.find (checkers : CheckersMap) (t : Trace) : Option Checker :=
  (checkers t.contractID).bind fun m => m t.procedure

mutual

/-- `aggregate`: every trace with its checker, or the first that has none. -/
def aggregate (checkers : CheckersMap) : List Trace → Except CheckError (List (Checker × Trace))
  | [] => .ok []
  | t :: ts => do
      let newpairs ← aggregateTrace checkers t
      let ctpairs ← aggregate checkers ts
      .ok (newpairs ++ ctpairs)

/-- A trace with its checker, and then its dependencies. -/
def aggregateTrace (checkers : CheckersMap) : Trace → Except CheckError (List (Checker × Trace))
  | .mk contractID procedure inputs references outputs parameters returns dependencies inputObjects
      inputReferences =>
      match checkers contractID with
      | none => .error (.unknownContract contractID)
      | some m =>
        match m procedure with
        | none => .error (.unknownProcedure procedure contractID)
        | some checker => do
            let newpairs ← aggregate checkers dependencies
            .ok ((checker, .mk contractID procedure inputs references outputs parameters returns
              dependencies inputObjects inputReferences) :: newpairs)

end

/-- `run`: the checkers run side by side, and all of them are waited for. -/
def run (checkers : CheckersMap) (tx : Transaction) : Except CheckError Bool := do
  let ctpairs ← aggregate checkers tx.traces
  .ok (ctpairs.all fun pair => pair.1.passes pair.2)

/-! ## §3. Requests (`checker.go`). -/

/-- The map of `New`. A later checker of the same procedure replaces an earlier one. -/
def newCheckers (cs : List Checker) : CheckersMap :=
  cs.foldl (fun checkers c =>
    checkers.set c.contractID (((checkers c.contractID).getD .empty).set c.name c)) .empty

/-- `check`: both passes. -/
def check (checkers : CheckersMap) (tx : Transaction) : Except CheckError Bool := do
  let _ ← typeCheck .empty tx.traces
  run checkers tx

/-- The answer to a request. -/
structure CheckResponse where
  ok : Bool
  signature : Bytes
  deriving DecidableEq, Repr

/-- The handler of a `CHECK` request, and `CheckAndSign`: a refused transaction is signed, too. -/
def checkAndSign (checkers : CheckersMap) (marshal : Transaction → Bytes) (sign : Bytes → Bytes)
    (tx : Transaction) : Except CheckError CheckResponse := do
  let ok ← check checkers tx
  .ok ⟨ok, sign (marshal tx)⟩

/-! ## §4. What a positive answer means. -/

mutual

/-- The traces of a forest and their dependencies, each before its own. -/
def nodes : List Trace → List Trace
  | [] => []
  | t :: ts => nodesOf t ++ nodes ts

/-- A trace and then its dependencies. -/
def nodesOf : Trace → List Trace
  | .mk contractID procedure inputs references outputs parameters returns dependencies inputObjects
      inputReferences =>
      .mk contractID procedure inputs references outputs parameters returns dependencies
        inputObjects inputReferences :: nodes dependencies

end

mutual

theorem mem_nodes {d : Trace} : ∀ {ts : List Trace}, d ∈ nodes ts ↔ d.Within ts
  | [] => by
      constructor
      · intro h
        cases h
      · exact fun h => absurd h Trace.not_within_nil
  | t :: ts => by
      rw [nodes, List.mem_append, Trace.within_cons, ← or_assoc, mem_nodesOf, mem_nodes]

theorem mem_nodesOf {d : Trace} : ∀ {t : Trace}, d ∈ nodesOf t ↔ d = t ∨ d.Within t.dependencies
  | .mk _ _ _ _ _ _ _ deps _ _ => by
      show d ∈ nodesOf _ ↔ _ ∨ d.Within deps
      rw [nodesOf, List.mem_cons, mem_nodes]

end

/-- A trace with its checker. -/
def CheckersMap.pair (checkers : CheckersMap) (t : Trace) : Except CheckError (Checker × Trace) :=
  match checkers t.contractID with
  | none => .error (.unknownContract t.contractID)
  | some m =>
    match m t.procedure with
    | none => .error (.unknownProcedure t.procedure t.contractID)
    | some checker => .ok (checker, t)

mutual

/-- **`aggregate`** goes through the forest and pairs each of its traces. -/
theorem aggregate_eq {checkers : CheckersMap} : ∀ ts : List Trace,
    aggregate checkers ts = (nodes ts).mapM checkers.pair
  | [] => rfl
  | t :: ts => by
      rw [aggregate, nodes, List.mapM_append, aggregateTrace_eq t, aggregate_eq ts]
      rfl

theorem aggregateTrace_eq {checkers : CheckersMap} : ∀ t : Trace,
    aggregateTrace checkers t = (nodesOf t).mapM checkers.pair
  | .mk c p ins refs outs ps rs deps ios irs => by
      rw [aggregateTrace, nodesOf, List.mapM_cons, aggregate_eq deps]
      simp only [CheckersMap.pair, Trace.contractID, Trace.procedure]
      cases checkers c with
      | none => rfl
      | some m =>
        cases hp : m p with
        | none | some => simp only [hp]; rfl

end

theorem CheckersMap.pair_outcome {checkers : CheckersMap} (t : Trace) :
    Outcome (fun pair => pair.2 = t ∧ checkers.find t = some pair.1)
      (fun _ => checkers.find t = none) (checkers.pair t) := by
  unfold CheckersMap.pair CheckersMap.find
  cases checkers t.contractID with
  | none => rfl
  | some m =>
    cases hp : m t.procedure with
    | none =>
      simp only [hp]
      exact hp
    | some =>
      simp only [hp]
      exact ⟨rfl, hp⟩

/-- Pairing traces: each once, in order and with its own checker, unless one has none. -/
theorem CheckersMap.pairs_outcome {checkers : CheckersMap} (ts : List Trace) :
    Outcome (fun pairs => pairs.map Prod.snd = ts ∧
        ∀ pair ∈ pairs, checkers.find pair.2 = some pair.1)
      (fun _ => ∃ t ∈ ts, checkers.find t = none) (ts.mapM checkers.pair) := by
  induction ts with
  | nil => exact ⟨rfl, by simp⟩
  | cons t ts ih =>
    rw [List.mapM_cons]
    refine Outcome.bind (Q := fun pair => pair.2 = t ∧ checkers.find t = some pair.1)
      (Outcome.intro ?_ ?_) ?_
    · intro pair hpair
      exact (checkers.pair_outcome t).of_ok hpair
    · intro e he
      exact ⟨t, List.mem_cons_self, (checkers.pair_outcome t).of_error he⟩
    intro pair _ hpair
    refine Outcome.bind (Outcome.intro (fun _ => ih.of_ok) ?_) ?_
    · intro e he
      obtain ⟨d, hd, hnone⟩ := ih.of_error he
      exact ⟨d, List.mem_cons_of_mem t hd, hnone⟩
    intro pairs _ hpairs
    refine ⟨by rw [List.map_cons, hpair.1, hpairs.1], ?_⟩
    intro other hother
    rcases List.mem_cons.mp hother with heq | hother
    · rw [heq, hpair.1]
      exact hpair.2
    · exact hpairs.2 other hother

/-- **A positive answer**: version IDs are used linearly, and every trace and dependency has a
checker, which accepts it. -/
theorem check_true {checkers : CheckersMap} {tx : Transaction} (h : check checkers tx = .ok true) :
    (∃ ids, typeCheck .empty tx.traces = .ok ids) ∧
      ∀ t : Trace, t.Within tx.traces → ∃ c, checkers.find t = some c ∧ c.passes t = true := by
  obtain ⟨ids, hids, h⟩ := bind_eq_ok.mp h
  refine ⟨⟨ids, hids⟩, ?_⟩
  obtain ⟨pairs, hpairs, h⟩ := bind_eq_ok.mp h
  injection h with h
  rw [aggregate_eq] at hpairs
  obtain ⟨htraces, hfind⟩ := (checkers.pairs_outcome _).of_ok hpairs
  intro t ht
  rw [← mem_nodes, ← htraces] at ht
  obtain ⟨pair, hpair, heq⟩ := List.mem_map.mp ht
  subst heq
  exact ⟨pair.1, hfind pair hpair, List.all_eq_true.mp h pair hpair⟩

example : b64 (text "Data yo!") = text "RGF0YSB5byE=" := by decide

end Chainspace.Checker
