/-
  Chainspace.Sbac.Types — transactions, objects, messages and events.

  The types of `sbac/types.proto`, `sbac/events.go` and the state constants of `sbac/states.go`.
  Byte strings are lists of bytes; `uint64` values are natural numbers, since the code does no
  arithmetic on them that could wrap. A Go map that is only looked up is a partial function.
-/
import Chainspace.Lib.Forest
import Chainspace.Lib.PartialMap

namespace Chainspace.Sbac

open Chainspace.Lib

/-- A Go `[]byte`: version IDs, transaction IDs, values, signatures. -/
abbrev Bytes := List UInt8

def text (s : String) : Bytes := s.toUTF8.data.toList

/-! ## §1. Objects and transactions (`types.proto`). -/

inductive ObjectStatus
  | active
  | inactive
  | locked
  deriving DecidableEq, Repr

structure Object where
  versionID : Bytes
  value : Bytes
  status : ObjectStatus
  labels : List Bytes
  deriving DecidableEq, Repr

/-- `OutputObject`: a value a trace creates, not yet identified. -/
structure OutputObject where
  labels : List Bytes
  object : Bytes
  deriving DecidableEq, Repr

/-- `Trace`: one procedure call of a contract, with the calls it depends on. -/
inductive Trace
  | mk (contractID procedure : Bytes)
      (inputObjectVersionIDs inputReferenceVersionIDs : List Bytes)
      (outputObjects : List OutputObject)
      (parameters returns : List Bytes)
      (dependencies : List Trace)
      (inputObjects inputReferences : List Bytes)

namespace Trace

def contractID : Trace → Bytes
  | mk c _ _ _ _ _ _ _ _ _ => c

def procedure : Trace → Bytes
  | mk _ p _ _ _ _ _ _ _ _ => p

def inputObjectVersionIDs : Trace → List Bytes
  | mk _ _ ins _ _ _ _ _ _ _ => ins

def inputReferenceVersionIDs : Trace → List Bytes
  | mk _ _ _ refs _ _ _ _ _ _ => refs

def outputObjects : Trace → List OutputObject
  | mk _ _ _ _ outs _ _ _ _ _ => outs

def parameters : Trace → List Bytes
  | mk _ _ _ _ _ ps _ _ _ _ => ps

def returns : Trace → List Bytes
  | mk _ _ _ _ _ _ rs _ _ _ => rs

def dependencies : Trace → List Trace
  | mk _ _ _ _ _ _ _ deps _ _ => deps

def inputObjects : Trace → List Bytes
  | mk _ _ _ _ _ _ _ _ objects _ => objects

def inputReferences : Trace → List Bytes
  | mk _ _ _ _ _ _ _ _ _ references => references

def versionIDs (t : Trace) : List Bytes := t.inputObjectVersionIDs ++ t.inputReferenceVersionIDs

end Trace

/-- A trace is one of the list, or a dependency of one, at any depth. -/
def Trace.Within (d : Trace) (ts : List Trace) : Prop := Forest.Within Trace.dependencies d ts

theorem Trace.not_within_nil {d : Trace} : ¬ d.Within [] := Forest.not_within_nil

theorem Trace.within_cons {d t : Trace} {ts : List Trace} :
    d.Within (t :: ts) ↔ d = t ∨ d.Within t.dependencies ∨ d.Within ts := Forest.within_cons

structure Transaction where
  traces : List Trace

/-- A map from node IDs to signatures over a transaction. -/
abbrev Evidences := PMap Nat Bytes

/-! ## §2. Messages (`types.proto`). -/

/-- `SBACOp`: the phase a message between shards belongs to. -/
inductive SBACOp
  | phase1
  | phase2
  | commit
  deriving DecidableEq, Repr

inductive SBACDecision
  | accept
  | reject
  deriving DecidableEq, Repr

/-- `SBACMessage`: a node's decision in a phase, sent to the nodes of other shards. -/
structure SBACMessage where
  op : SBACOp
  decision : SBACDecision
  txID : Bytes
  tx : Transaction
  evidences : Evidences
  signature : Bytes
  peerID : Nat

/-- `ConsensusOp`: what the nodes of one shard agree on. -/
inductive ConsensusOp
  | consensus1
  | consensus2
  | consensusCommit
  deriving DecidableEq, Repr

/-- `ConsensusTransaction`: a transaction as a shard's broadcast orders it. -/
structure ConsensusTransaction where
  txID : Bytes
  tx : Transaction
  evidences : Evidences
  op : ConsensusOp
  initiator : Nat

/-! ## §3. Events (`events.go`). -/

inductive Event
  | consensus (data : ConsensusTransaction)
  | sbac (msg : SBACMessage)

def Event.txID : Event → Bytes
  | .consensus data => data.txID
  | .sbac msg => msg.txID

/-! ## §4. States (`states.go`). -/

/-- `State`: the main state of a transaction on a node. -/
inductive State
  | waitingForConsensus1
  | objectLocked
  | acceptPhase1Broadcasted
  | rejectPhase1Broadcasted
  | waitingForPhase1
  | consensus2Triggered
  | waitingForConsensus2
  | acceptPhase2Broadcasted
  | rejectPhase2Broadcasted
  | waitingForPhase2
  | objectsDeactivated
  | objectsCreated
  | commitObjectsBroadcasted
  | waitingForCommit
  | consensusCommitTriggered
  | waitingForConsensusCommit
  | aborted
  | succeeded
  deriving DecidableEq, Repr

end Chainspace.Sbac
