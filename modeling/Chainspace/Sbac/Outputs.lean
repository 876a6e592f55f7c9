/-
  Chainspace.Sbac.Outputs — the version IDs of the objects a transaction creates.

  The version ID of an output is the hash of the identifier of its trace, its value and its number
  in four bytes. The identifier has a fixed length, so the three parts can be read off the bytes and
  no two outputs of a transaction with distinct trace identifiers are hashed from one string.
-/
import Chainspace.Sbac.Binding
import Chainspace.Sbac.Store
import Mathlib.Data.List.Nodup

namespace Chainspace.Sbac

open List

section Outputs
variable (hash : Bytes → Bytes)

/-- The strings that `MakeObjectIDs` hashes, over the traces of a transaction. -/
def Transaction.outputStrings (tx : Transaction) : List Bytes :=
  tx.traces.flatMap fun t => t.outputObjects.mapIdx (outputData hash t)

def Transaction.newObjects (tx : Transaction) : List Object :=
  (makeTraceObjectPairs hash tx.traces).flatMap TraceObjectPair.outputObjects

theorem newObjects_eq (tx : Transaction) : tx.newObjects hash = tx.traces.flatMap fun t =>
    t.outputObjects.mapIdx fun i out =>
      ⟨hash (outputData hash t i out), out.object, .active, out.labels⟩ := by
  unfold Transaction.newObjects makeTraceObjectPairs
  rw [flatMap_map]
  rfl

theorem versionIDs_newObjects (tx : Transaction) :
    (tx.newObjects hash).map Object.versionID = (tx.outputStrings hash).map hash := by
  rw [newObjects_eq, Transaction.outputStrings, map_flatMap, map_flatMap]
  simp only [map_mapIdx]

variable {hash}

/-- The outputs of a trace are hashed from strings with different numbers. -/
theorem nodup_outputData (hlen : ∀ data, (hash data).length = 32) {t : Trace}
    (hcount : t.outputObjects.length < 2 ^ 32) :
    (t.outputObjects.mapIdx (outputData hash t)).Nodup := by
  refine pairwise_iff_getElem.mpr ?_
  intro i j hi hj hij heq
  rw [length_mapIdx] at hi hj
  rw [getElem_mapIdx, getElem_mapIdx] at heq
  have hmod := (outputData_inj hlen heq).1
  omega

theorem nodup_outputStrings (hlen : ∀ data, (hash data).length = 32) {tx : Transaction}
    (htraces : (tx.traces.map (makeTraceID hash)).Nodup)
    (hcount : ∀ t ∈ tx.traces, t.outputObjects.length < 2 ^ 32) :
    (tx.outputStrings hash).Nodup := by
  refine nodup_flatMap.mpr ⟨fun t ht => nodup_outputData hlen (hcount t ht), ?_⟩
  refine (pairwise_map.mp htraces).imp ?_
  -- outputs of two traces: their strings begin with different identifiers
  intro t u hne data hdata hdata'
  obtain ⟨i, _, hti⟩ := mem_mapIdx.mp hdata
  obtain ⟨j, _, huj⟩ := mem_mapIdx.mp hdata'
  exact hne (outputData_inj hlen (hti.trans huj.symm)).2.2

/-- **Output objects get distinct version IDs**: with a hash of 32 bytes that does not collide on
the strings of the outputs, in a transaction whose traces have distinct identifiers and fewer than
`2 ^ 32` outputs each. The objects stand in the order of the outputs, with their values and labels,
and a store without them creates them all. -/
theorem newObjects_distinct (hlen : ∀ data, (hash data).length = 32) (tx : Transaction)
    (hinj : ∀ x ∈ tx.outputStrings hash, ∀ y ∈ tx.outputStrings hash, hash x = hash y → x = y)
    (htraces : (tx.traces.map (makeTraceID hash)).Nodup)
    (hcount : ∀ t ∈ tx.traces, t.outputObjects.length < 2 ^ 32) :
    ((tx.newObjects hash).map Object.versionID).Nodup ∧
      (makeTraceObjectPairs hash tx.traces).map (fun pair =>
          pair.outputObjects.map fun obj => (obj.value, obj.labels)) =
        tx.traces.map (fun t => t.outputObjects.map fun out => (out.object, out.labels)) ∧
      ∀ s : Store, s.values = .empty → s.statuses = .empty →
        ∃ s', s.createObjects (tx.newObjects hash) = .ok s' := by
  have hnodup : ((tx.newObjects hash).map Object.versionID).Nodup := by
    rw [versionIDs_newObjects]
    exact (nodup_outputStrings hlen htraces hcount).map_on hinj
  refine ⟨hnodup, ?_, ?_⟩
  · unfold makeTraceObjectPairs
    rw [map_map]
    refine map_congr_left fun t _ => ?_
    show (makeObjectIDs hash (makeTraceID hash t) t).map _ = _
    rw [makeObjectIDs_eq, map_mapIdx]
    exact mapIdx_eq_iff.mpr (by simp)
  intro s hvalues hstatuses
  refine Store.createObjects_of_absent hnodup ?_
  intro obj _
  rw [hvalues, hstatuses]
  exact ⟨rfl, rfl⟩

def shortHash (data : Bytes) : Bytes :=
  (data.drop (data.length - 4) ++ data ++ List.replicate 32 0).take 32

def threeOutputs : Transaction :=
  ⟨[.mk [97] [1] [] [] [⟨[], [7]⟩, ⟨[], [7]⟩] [] [] [] [] [],
    .mk [98] [1] [] [] [⟨[], [7]⟩] [] [] [] [] []]⟩

theorem newObjects_distinct_three :
    ((threeOutputs.newObjects shortHash).map Object.versionID).Nodup :=
  (@newObjects_distinct shortHash (by
      intro data
      simp only [shortHash, length_take, length_append, length_replicate]
      omega)
    threeOutputs (by decide) (by decide) (by decide)).1

end Outputs

end Chainspace.Sbac
