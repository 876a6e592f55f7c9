/-
  Chainspace.Sbac.Identifiers — the identifiers of traces, objects and transactions
  (`sbac/identifiers.go`).

  SHA-512/256 is a parameter `hash`.  A `hash.Hash` never returns an error from `Write`, so the
  error results of these functions cannot occur and the functions are total.
-/
import Chainspace.Sbac.Types
import Mathlib.Algebra.GroupWithZero.Nat

namespace Chainspace.Sbac

/-- `IDs.TraceObjectPairs`: a trace with its identifier and the objects it creates. -/
structure TraceObjectPair where
  id : Bytes
  trace : Trace
  outputObjects : List Object

section Identifiers
variable (hash : Bytes → Bytes)

mutual

def makeTraceID : Trace → Bytes
  | .mk contractID procedure inputs references _ _ _ dependencies _ _ =>
    hash (contractID ++ procedure ++ inputs.flatten ++ references.flatten ++
      makeDependencyIDs dependencies)

def makeDependencyIDs : List Trace → Bytes
  | [] => []
  | t :: ts => makeTraceID t ++ makeDependencyIDs ts

end

def putUint32 (i : Nat) : Bytes :=
  [.ofNat i, .ofNat (i / 2 ^ 8), .ofNat (i / 2 ^ 16), .ofNat (i / 2 ^ 24)]

/-- `MakeObjectIDs`: the output objects of a trace, in their order. -/
def makeObjectIDs (id : Bytes) (trace : Trace) : List Object :=
  trace.outputObjects.mapIdx fun i out =>
    ⟨hash (id ++ out.object ++ putUint32 i), out.object, .active, out.labels⟩

def makeTraceObjectPairs (traces : List Trace) : List TraceObjectPair :=
  traces.map fun trace =>
    ⟨makeTraceID hash trace, trace, makeObjectIDs hash (makeTraceID hash trace) trace⟩

def makeTransactionID (pairs : List TraceObjectPair) : Bytes :=
  hash (pairs.flatMap fun pair => pair.id ++ pair.outputObjects.flatMap Object.versionID)

def txIDOf (tx : Transaction) : Bytes :=
  makeTransactionID hash (makeTraceObjectPairs hash tx.traces)

end Identifiers

end Chainspace.Sbac
