/-
  Chainspace.Sbac.Binding — what the identifiers of `sbac/identifiers.go` determine.

  `MakeTraceID` hashes the concatenation of its fields, without their lengths. Traces of different
  shapes can have one identifier whatever the hash function is: an input is a reference, a
  dependency is a part of an input. `MakeIDs` does the same, and leaves out the labels. An
  identifier determines a trace (§1) or a transaction (§2) among those of the same shape, and of no
  two shapes with the same number of bytes.
-/
import Chainspace.Sbac.Identifiers
import Mathlib.Data.List.SplitLengths

namespace Chainspace.Sbac

open List

/-! ## §1. Traces. -/

section Pieces
variable (hash : Bytes → Bytes)

def Trace.pieces (t : Trace) : List Bytes :=
  t.contractID :: t.procedure :: (t.inputObjectVersionIDs ++ t.inputReferenceVersionIDs ++
    t.dependencies.map (makeTraceID hash))

theorem makeDependencyIDs_eq (ts : List Trace) :
    makeDependencyIDs hash ts = (ts.map (makeTraceID hash)).flatten := by
  induction ts with
  | nil => rfl
  | cons t ts ih =>
    rw [makeDependencyIDs, ih]
    rfl

theorem makeTraceID_eq (t : Trace) : makeTraceID hash t = hash (t.pieces hash).flatten := by
  cases t with
  | mk =>
    rw [makeTraceID, makeDependencyIDs_eq]
    simp [Trace.pieces, Trace.contractID, Trace.procedure, Trace.inputObjectVersionIDs,
      Trace.inputReferenceVersionIDs, Trace.dependencies]

/-- **What the identifier of a trace should determine.** -/
structure SameTrace (t u : Trace) : Prop where
  contractID : t.contractID = u.contractID
  procedure : t.procedure = u.procedure
  inputs : t.inputObjectVersionIDs = u.inputObjectVersionIDs
  references : t.inputReferenceVersionIDs = u.inputReferenceVersionIDs
  dependencies : t.dependencies.map (makeTraceID hash) = u.dependencies.map (makeTraceID hash)

end Pieces

/-- The lengths of the fields of a trace, and the number of its dependencies. -/
structure TraceShape where
  contractID : Nat
  procedure : Nat
  inputs : List Nat
  references : List Nat
  dependencies : Nat
  deriving DecidableEq, Repr

def Trace.shape (t : Trace) : TraceShape where
  contractID := t.contractID.length
  procedure := t.procedure.length
  inputs := t.inputObjectVersionIDs.map List.length
  references := t.inputReferenceVersionIDs.map List.length
  dependencies := t.dependencies.length

def TraceShape.fields (a : TraceShape) : Nat :=
  a.contractID + a.procedure + a.inputs.sum + a.references.sum

/-- The number of bytes that are hashed; an identifier has 32. -/
def TraceShape.size (a : TraceShape) : Nat := a.fields + 32 * a.dependencies

section Traces
variable {hash : Bytes → Bytes}

theorem SameTrace.shape {t u : Trace} (h : SameTrace hash t u) : t.shape = u.shape := by
  have hdeps := congrArg List.length h.dependencies
  simp only [length_map] at hdeps
  unfold Trace.shape
  rw [h.contractID, h.procedure, h.inputs, h.references, hdeps]

theorem sum_map_length_of_forall {xs : List Bytes} {k : Nat} (h : ∀ x ∈ xs, x.length = k) :
    (xs.map List.length).sum = k * xs.length := by
  induction xs with
  | nil => rfl
  | cons x xs ih =>
    rw [map_cons, sum_cons, ih (fun y hy => h y (mem_cons_of_mem x hy)),
      h x mem_cons_self, length_cons, Nat.mul_succ]
    omega

theorem length_pieces (hlen : ∀ data, (hash data).length = 32) (t : Trace) :
    (t.pieces hash).flatten.length = t.shape.size := by
  have hdeps : ((t.dependencies.map (makeTraceID hash)).map List.length).sum =
      32 * t.dependencies.length := by
    rw [sum_map_length_of_forall (k := 32), length_map]
    intro x hx
    obtain ⟨d, _, heq⟩ := mem_map.mp hx
    rw [← heq, makeTraceID_eq]
    exact hlen _
  unfold Trace.pieces TraceShape.size TraceShape.fields Trace.shape
  rw [length_flatten]
  simp only [map_cons, map_append, sum_cons, sum_append]
  rw [hdeps]
  omega

theorem SameTrace.of_shape (hlen : ∀ data, (hash data).length = 32) {t u : Trace}
    (hshape : t.shape = u.shape) (h : (t.pieces hash).flatten = (u.pieces hash).flatten) :
    SameTrace hash t u := by
  have hids : ∀ ts : List Trace, (ts.map (makeTraceID hash)).map List.length =
      List.replicate ts.length 32 := by
    intro ts
    induction ts with
    | nil => rfl
    | cons t ts ih =>
      rw [map_cons, map_cons, ih, makeTraceID_eq, hlen]
      rfl
  have hc : t.contractID.length = u.contractID.length := congrArg TraceShape.contractID hshape
  have hp : t.procedure.length = u.procedure.length := congrArg TraceShape.procedure hshape
  have hi : t.inputObjectVersionIDs.map List.length = u.inputObjectVersionIDs.map List.length :=
    congrArg TraceShape.inputs hshape
  have hr : t.inputReferenceVersionIDs.map List.length =
      u.inputReferenceVersionIDs.map List.length := congrArg TraceShape.references hshape
  have hd : t.dependencies.length = u.dependencies.length := congrArg TraceShape.dependencies hshape
  have hlengths : (t.pieces hash).map List.length = (u.pieces hash).map List.length := by
    unfold Trace.pieces
    simp only [map_cons, map_append]
    rw [hc, hp, hi, hr, hids, hids, hd]
  have hpieces : t.pieces hash = u.pieces hash := eq_iff_flatten_eq.mpr ⟨h, hlengths⟩
  unfold Trace.pieces at hpieces
  injection hpieces with hcontract hpieces
  injection hpieces with hproc hpieces
  have hilen := congrArg List.length hi
  have hrlen := congrArg List.length hr
  simp only [length_map] at hilen hrlen
  obtain ⟨hfirst, hdeps⟩ := append_inj hpieces (by simp [hilen, hrlen])
  obtain ⟨hins, hrefs⟩ := append_inj hfirst hilen
  exact ⟨hcontract, hproc, hins, hrefs, hdeps⟩

def TraceShape.build (a : TraceShape) (data : Bytes) (dependencies : List Trace) : Trace :=
  let inputs := (data.drop a.contractID).drop a.procedure
  .mk (data.take a.contractID) ((data.drop a.contractID).take a.procedure)
    (a.inputs.splitLengths (inputs.take a.inputs.sum))
    (a.references.splitLengths (inputs.drop a.inputs.sum)) [] [] [] dependencies [] []

variable {a : TraceShape}

theorem TraceShape.shape_build {data : Bytes} (h : data.length = a.fields)
    {dependencies : List Trace} (hd : dependencies.length = a.dependencies) :
    (a.build data dependencies).shape = a := by
  have h : data.length = a.contractID + a.procedure + a.inputs.sum + a.references.sum := h
  show (⟨_, _, _, _, _⟩ : TraceShape) = ⟨_, _, _, _, _⟩
  congr 1
  · show (data.take a.contractID).length = a.contractID
    rw [length_take]
    omega
  · show ((data.drop a.contractID).take a.procedure).length = a.procedure
    rw [length_take, length_drop]
    omega
  · refine map_splitLengths_length _ _ ?_
    rw [length_take, length_drop, length_drop]
    omega
  refine map_splitLengths_length _ _ ?_
  rw [length_drop, length_drop, length_drop]
  omega

theorem TraceShape.pieces_build {data : Bytes} (h : data.length = a.fields)
    (dependencies : List Trace) :
    ((a.build data dependencies).pieces hash).flatten =
      data ++ (dependencies.map (makeTraceID hash)).flatten := by
  have h : data.length = a.contractID + a.procedure + a.inputs.sum + a.references.sum := h
  have hins : (a.inputs.splitLengths (((data.drop a.contractID).drop a.procedure).take
      a.inputs.sum)).flatten = ((data.drop a.contractID).drop a.procedure).take a.inputs.sum := by
    refine flatten_splitLengths _ _ ?_
    rw [length_take]
    omega
  have hrefs : (a.references.splitLengths (((data.drop a.contractID).drop a.procedure).drop
      a.inputs.sum)).flatten = ((data.drop a.contractID).drop a.procedure).drop a.inputs.sum := by
    refine flatten_splitLengths _ _ ?_
    rw [length_drop, length_drop, length_drop]
    omega
  show (_ :: _ :: (_ ++ _ ++ _ : List Bytes)).flatten = _
  rw [flatten_cons, flatten_cons, flatten_append, flatten_append]
  show data.take a.contractID ++ ((data.drop a.contractID).take a.procedure ++
    ((a.inputs.splitLengths _).flatten ++ (a.references.splitLengths _).flatten ++ _)) = _
  rw [hins, hrefs, take_append_drop, ← append_assoc, ← append_assoc,
    append_assoc (data.take _), take_append_drop, take_append_drop]
  rfl

/-- **Two shapes with the same number of bytes have traces with the same bytes.** The one with more
dependencies has leaves for them, the other has the surplus in its fields. -/
theorem exists_same_bytes (hlen : ∀ data, (hash data).length = 32) {b : TraceShape}
    (hsize : a.size = b.size) (hle : b.dependencies ≤ a.dependencies) :
    ∃ t u : Trace, t.shape = a ∧ u.shape = b ∧
      (t.pieces hash).flatten = (u.pieces hash).flatten := by
  let leaf : Trace := .mk [] [] [] [] [] [] [] [] [] []
  have hids : ∀ k, ((List.replicate k leaf).map (makeTraceID hash)).flatten.length = 32 * k := by
    intro k
    rw [length_flatten, sum_map_length_of_forall (k := 32), length_map, length_replicate]
    intro x hx
    obtain ⟨d, _, heq⟩ := mem_map.mp hx
    rw [← heq, makeTraceID_eq]
    exact hlen _
  let zeros : Bytes := List.replicate a.fields 0
  let extra : Bytes := ((List.replicate (a.dependencies - b.dependencies) leaf).map
    (makeTraceID hash)).flatten
  have hzeros : zeros.length = a.fields := length_replicate
  have hextra : (zeros ++ extra).length = b.fields := by
    rw [length_append, hzeros, hids]
    unfold TraceShape.size at hsize
    omega
  refine ⟨a.build zeros (List.replicate a.dependencies leaf),
    b.build (zeros ++ extra) (List.replicate b.dependencies leaf),
    TraceShape.shape_build hzeros length_replicate,
    TraceShape.shape_build hextra length_replicate, ?_⟩
  rw [TraceShape.pieces_build hzeros, TraceShape.pieces_build hextra, append_assoc]
  congr 1
  rw [← flatten_append, ← map_append, replicate_append_replicate, Nat.sub_add_cancel hle]

/-- The identifiers of two traces bind them, if the hash does not collide. -/
def Binds (hash : Bytes → Bytes) (t u : Trace) : Prop :=
  (hash (t.pieces hash).flatten = hash (u.pieces hash).flatten →
      (t.pieces hash).flatten = (u.pieces hash).flatten) →
    makeTraceID hash t = makeTraceID hash u → SameTrace hash t u

theorem binds_iff (hlen : ∀ data, (hash data).length = 32) (a b : TraceShape) :
    (∀ t u : Trace, t.shape = a → u.shape = b → Binds hash t u) ↔ a = b ∨ a.size ≠ b.size := by
  constructor
  · intro h
    by_contra hcon
    obtain ⟨hne, hsize⟩ := not_or.mp hcon
    have hsize := not_not.mp hsize
    rcases Nat.le_total b.dependencies a.dependencies with hle | hle
    · obtain ⟨t, u, ht, hu, heq⟩ := exists_same_bytes hlen hsize hle
      have hsame := h t u ht hu (fun _ => heq) (by rw [makeTraceID_eq, makeTraceID_eq, heq])
      exact hne (by rw [← ht, ← hu, hsame.shape])
    obtain ⟨u, t, hu, ht, heq⟩ := exists_same_bytes hlen hsize.symm hle
    have hsame := h t u ht hu (fun _ => heq.symm) (by rw [makeTraceID_eq, makeTraceID_eq, heq])
    exact hne (by rw [← ht, ← hu, hsame.shape])
  intro h t u ht hu hinj hid
  rw [makeTraceID_eq, makeTraceID_eq] at hid
  have heq := hinj hid
  rcases h with hab | hsize
  · exact SameTrace.of_shape hlen (by rw [ht, hu, hab]) heq
  · exact absurd (by rw [← ht, ← hu, ← length_pieces hlen, heq, length_pieces hlen]) hsize

end Traces

/-! ## §2. Transactions. -/

/-- The labels of the output objects of a transaction, for each trace. -/
abbrev Labels := List (List (List Bytes))

def Transaction.labels (tx : Transaction) : Labels :=
  tx.traces.map fun t => t.outputObjects.map OutputObject.labels

/-- What stands at a position of the bytes of a transaction: the identifier of a trace, or of an
output of it. -/
def tags (c : Labels) : List (Option Nat) :=
  c.flatMap fun outs => none :: (List.range outs.length).map some

theorem map_mapIdx {α β γ : Type} (f : Nat → α → β) (g : β → γ) (l : List α) :
    (l.mapIdx f).map g = l.mapIdx fun i a => g (f i a) := by
  apply ext_getElem
  · simp
  · intro i h1 h2
    simp

section Slots
variable (hash : Bytes → Bytes)

def outputData (t : Trace) (i : Nat) (out : OutputObject) : Bytes :=
  makeTraceID hash t ++ out.object ++ putUint32 i

/-- What `MakeTransactionID` hashes; for an output, with its number and the bytes it is the hash of.
-/
abbrev Slot := Option (Nat × Bytes) × Bytes

def Trace.slots (t : Trace) : List Slot :=
  (none, makeTraceID hash t) :: t.outputObjects.mapIdx fun i out =>
    (some (i, outputData hash t i out), hash (outputData hash t i out))

def Transaction.slots (tx : Transaction) : List Slot := tx.traces.flatMap (Trace.slots hash)

def Transaction.bytes (tx : Transaction) : Bytes := ((tx.slots hash).map Prod.snd).flatten

theorem makeObjectIDs_eq (t : Trace) : makeObjectIDs hash (makeTraceID hash t) t =
    t.outputObjects.mapIdx fun i out =>
      ⟨hash (outputData hash t i out), out.object, .active, out.labels⟩ := rfl

theorem txIDOf_eq (tx : Transaction) : txIDOf hash tx = hash (tx.bytes hash) := by
  unfold txIDOf makeTransactionID makeTraceObjectPairs Transaction.bytes Transaction.slots
  congr 1
  induction tx.traces with
  | nil => rfl
  | cons t ts ih =>
    rw [map_cons, flatMap_cons, ih, flatMap_cons, map_append, flatten_append]
    congr 1
    rw [makeObjectIDs_eq, flatMap_def, map_mapIdx]
    unfold Trace.slots
    rw [map_cons, flatten_cons, map_mapIdx]

/-- **What the identifier of a transaction should determine**: those of its traces and outputs. -/
def Transaction.outcome (tx : Transaction) : List (Bytes × List Object) :=
  (makeTraceObjectPairs hash tx.traces).map fun pair => (pair.id, pair.outputObjects)

/-- The hash does not collide on two transactions, nor on outputs at the same position. -/
structure NoCollision (tx ty : Transaction) : Prop where
  bytes : hash (tx.bytes hash) = hash (ty.bytes hash) → tx.bytes hash = ty.bytes hash
  outputs : ∀ x ∈ (tx.slots hash).zip (ty.slots hash), ∀ i data j data',
    x.1.1 = some (i, data) → x.2.1 = some (j, data') → hash data = hash data' → data = data'

/-- The identifiers of two transactions bind them, if the hash does not collide. -/
def BindsTx (tx ty : Transaction) : Prop :=
  NoCollision hash tx ty → txIDOf hash tx = txIDOf hash ty → tx.outcome hash = ty.outcome hash

end Slots

section Transactions
variable {hash : Bytes → Bytes}

theorem Trace.tags_slots (t : Trace) : (t.slots hash).map (fun x => x.1.map Prod.fst) =
    none :: (List.range (t.outputObjects.map OutputObject.labels).length).map some := by
  unfold Trace.slots
  rw [map_cons, map_mapIdx, length_map]
  congr 1
  apply ext_getElem
  · simp
  · intro i h1 h2
    simp

theorem Transaction.tags_slots (tx : Transaction) :
    (tx.slots hash).map (fun x => x.1.map Prod.fst) = tags tx.labels := by
  unfold Transaction.slots tags Transaction.labels
  rw [map_flatMap, flatMap_map]
  exact flatMap_congr (fun t _ => t.tags_slots)

variable {tx ty : Transaction} {i : Nat}

theorem length_slots (hlen : ∀ data, (hash data).length = 32) {x : Slot}
    (hx : x ∈ tx.slots hash) : x.2.length = 32 := by
  obtain ⟨t, _, hx⟩ := mem_flatMap.mp hx
  rcases mem_cons.mp hx with hx | hx
  · rw [hx, makeTraceID_eq]
    exact hlen _
  obtain ⟨i, h, heq⟩ := mem_mapIdx.mp hx
  rw [← heq]
  exact hlen _

theorem words_eq (hlen : ∀ data, (hash data).length = 32) (h : tx.bytes hash = ty.bytes hash) :
    (tx.slots hash).map Prod.snd = (ty.slots hash).map Prod.snd := by
  have hlengths : ∀ tz : Transaction, ((tz.slots hash).map Prod.snd).map List.length =
      List.replicate (tz.slots hash).length 32 := by
    intro tz
    rw [map_map]
    refine eq_replicate_iff.mpr ⟨length_map .., ?_⟩
    intro k hk
    obtain ⟨x, hx, heq⟩ := mem_map.mp hk
    rw [← heq]
    exact length_slots hlen hx
  have hcount : ∀ tz : Transaction, (tz.bytes hash).length = 32 * (tz.slots hash).length := by
    intro tz
    unfold Transaction.bytes
    rw [length_flatten, hlengths, sum_replicate_nat, Nat.mul_comm]
  have hsame : (tx.slots hash).length = (ty.slots hash).length := by
    have hx := hcount tx
    have hy := hcount ty
    rw [h] at hx
    omega
  refine eq_iff_flatten_eq.mpr ⟨h, ?_⟩
  rw [hlengths, hlengths, hsame]

theorem putUint32_inj {j : Nat} (h : putUint32 i = putUint32 j) : i % 2 ^ 32 = j % 2 ^ 32 := by
  unfold putUint32 at h
  simp only [List.cons.injEq, and_true] at h
  obtain ⟨h0, h1, h2, h3⟩ := h
  have h0 := congrArg UInt8.toNat h0
  have h1 := congrArg UInt8.toNat h1
  have h2 := congrArg UInt8.toNat h2
  have h3 := congrArg UInt8.toNat h3
  simp only [UInt8.toNat_ofNat'] at h0 h1 h2 h3
  omega

theorem outputData_inj (hlen : ∀ data, (hash data).length = 32) {t u : Trace} {j : Nat}
    {out out' : OutputObject} (h : outputData hash t i out = outputData hash u j out') :
    i % 2 ^ 32 = j % 2 ^ 32 ∧ out.object = out'.object ∧
      makeTraceID hash t = makeTraceID hash u := by
  unfold outputData at h
  have hput : ∀ k, (putUint32 k).length = 4 := fun _ => rfl
  have hid : ∀ v : Trace, (makeTraceID hash v).length = 32 := by
    intro v
    rw [makeTraceID_eq]
    exact hlen _
  obtain ⟨hleft, hright⟩ := append_inj' h (by rw [hput, hput])
  obtain ⟨htrace, hobj⟩ := append_inj hleft (by rw [hid, hid])
  exact ⟨putUint32_inj hright, hobj, htrace⟩

theorem Transaction.mem_slots {x : Slot} (hx : x ∈ tx.slots hash)
    {data : Bytes} (hsome : x.1 = some (i, data)) :
    x.2 = hash data ∧ ∃ t out, data = outputData hash t i out := by
  obtain ⟨t, _, hx⟩ := mem_flatMap.mp hx
  rcases mem_cons.mp hx with hx | hx
  · rw [hx] at hsome
    exact absurd hsome (by simp)
  obtain ⟨k, h, heq⟩ := mem_mapIdx.mp hx
  rw [← heq] at hsome
  injection hsome with hsome
  injection hsome with hk hdata
  rw [← heq, ← hdata, ← hk]
  exact ⟨rfl, t, _, rfl⟩

theorem snd_eq_of_mem_zip {xs ys : List Slot} (h : xs.map Prod.snd = ys.map Prod.snd)
    {x : Slot × Slot} (hx : x ∈ xs.zip ys) : x.1.2 = x.2.2 := by
  induction xs generalizing ys with
  | nil => exact absurd hx (by simp)
  | cons a xs ih =>
    cases ys with
    | nil => exact absurd hx (by simp)
    | cons =>
      injection h with hab h
      rcases mem_cons.mp hx with hx | hx
      · rw [hx]
        exact hab
      · exact ih h hx

theorem makeObjectIDs_congr (hlen : ∀ data, (hash data).length = 32) {t u : Trace}
    (hlabels : t.outputObjects.map OutputObject.labels = u.outputObjects.map OutputObject.labels)
    (hwords : (t.slots hash).map Prod.snd = (u.slots hash).map Prod.snd)
    (hcol : ∀ x ∈ (t.slots hash).zip (u.slots hash), ∀ i data j data',
      x.1.1 = some (i, data) → x.2.1 = some (j, data') → hash data = hash data' → data = data') :
    makeObjectIDs hash (makeTraceID hash t) t = makeObjectIDs hash (makeTraceID hash u) u := by
  have hlength : t.outputObjects.length = u.outputObjects.length := by
    have h := congrArg List.length hlabels
    simpa using h
  rw [makeObjectIDs_eq, makeObjectIDs_eq]
  apply ext_getElem
  · simp [hlength]
  intro i h1 h2
  rw [length_mapIdx] at h1 h2
  rw [getElem_mapIdx, getElem_mapIdx]
  -- The outputs with number `i`, at position `i + 1` of the two traces.
  have hmem : ((some (i, outputData hash t i t.outputObjects[i]),
        hash (outputData hash t i t.outputObjects[i])),
      (some (i, outputData hash u i u.outputObjects[i]),
        hash (outputData hash u i u.outputObjects[i]))) ∈
      (t.slots hash).zip (u.slots hash) := by
    unfold Trace.slots
    rw [zip_cons_cons]
    refine mem_cons_of_mem _ (mem_iff_getElem.mpr ⟨i, by simp [h1, h2], ?_⟩)
    rw [getElem_zip, getElem_mapIdx, getElem_mapIdx]
  have hword : hash (outputData hash t i t.outputObjects[i]) =
      hash (outputData hash u i u.outputObjects[i]) := snd_eq_of_mem_zip hwords hmem
  have hdata := hcol _ hmem _ _ _ _ rfl rfl hword
  have hlab : t.outputObjects[i].labels = u.outputObjects[i].labels := by
    have h := congrArg (fun l => l[i]?) hlabels
    simpa [h1, h2] using h
  rw [hword, (outputData_inj hlen hdata).2.1, hlab]

theorem outcome_congr (hlen : ∀ data, (hash data).length = 32)
    (hlabels : tx.labels = ty.labels) (hbytes : tx.bytes hash = ty.bytes hash)
    (hcol : NoCollision hash tx ty) : tx.outcome hash = ty.outcome hash := by
  have hwords := words_eq hlen hbytes
  have hcol := hcol.outputs
  unfold Transaction.slots at hwords hcol
  unfold Transaction.labels at hlabels
  unfold Transaction.outcome makeTraceObjectPairs
  rw [map_map, map_map]
  generalize tx.traces = ts at hwords hcol hlabels
  generalize ty.traces = us at hwords hcol hlabels
  induction ts generalizing us with
  | nil =>
    cases us with
    | nil => rfl
    | cons => exact absurd hlabels (by simp)
  | cons t ts ih =>
    cases us with
    | nil => exact absurd hlabels (by simp)
    | cons u us =>
      injection hlabels with hlab hlabels
      have hlength : (t.slots hash).length = (u.slots hash).length := by
        have h := congrArg List.length hlab
        simpa [Trace.slots] using h
      rw [flatMap_cons, flatMap_cons] at hwords hcol
      rw [map_append, map_append] at hwords
      rw [zip_append hlength] at hcol
      obtain ⟨hfirst, hrest⟩ := append_inj hwords (by simp [hlength])
      have hid : makeTraceID hash t = makeTraceID hash u := by
        unfold Trace.slots at hfirst
        injection hfirst
      have hobjs := makeObjectIDs_congr hlen hlab hfirst (fun x hx => hcol x (mem_append_left _ hx))
      rw [map_cons, map_cons, ih us hrest (fun x hx => hcol x (mem_append_right _ hx)) hlabels]
      show (makeTraceID hash t, makeObjectIDs hash (makeTraceID hash t) t) :: _ =
        (makeTraceID hash u, makeObjectIDs hash (makeTraceID hash u) u) :: _
      rw [hobjs, hid]

theorem labels_of_outcome (tx : Transaction) :
    tx.labels = (tx.outcome hash).map fun x => x.2.map Object.labels := by
  unfold Transaction.labels Transaction.outcome makeTraceObjectPairs
  rw [map_map, map_map]
  refine map_congr_left ?_
  intro t _
  show _ = (makeObjectIDs hash (makeTraceID hash t) t).map Object.labels
  rw [makeObjectIDs_eq, map_mapIdx]
  apply ext_getElem
  · simp
  · intro i h1 h2
    simp

def Conflict (c c' : Labels) : Prop :=
  ∃ i j, (some i, some j) ∈ (tags c).zip (tags c') ∧ i % 2 ^ 32 ≠ j % 2 ^ 32

theorem not_conflict (hlen : ∀ data, (hash data).length = 32)
    (hbytes : tx.bytes hash = ty.bytes hash) (hcol : NoCollision hash tx ty) :
    ¬ Conflict tx.labels ty.labels := by
  rintro ⟨i, j, hmem, hne⟩
  rw [← @Transaction.tags_slots hash tx, ← @Transaction.tags_slots hash ty, zip_map] at hmem
  obtain ⟨x, hx, heq⟩ := mem_map.mp hmem
  injection heq with hi hj
  obtain ⟨⟨i', data⟩, hdata, hi⟩ := Option.map_eq_some_iff.mp hi
  obtain ⟨⟨j', data'⟩, hdata', hj⟩ := Option.map_eq_some_iff.mp hj
  subst hi hj
  obtain ⟨hx1, hx2⟩ := of_mem_zip hx
  obtain ⟨hw, t, out, ht⟩ := Transaction.mem_slots hx1 hdata
  obtain ⟨hw', u, out', hu⟩ := Transaction.mem_slots hx2 hdata'
  have hword := snd_eq_of_mem_zip (words_eq hlen hbytes) hx
  have hsame := hcol.outputs x hx _ _ _ _ hdata hdata' (by rw [← hw, ← hw', hword])
  rw [ht, hu] at hsame
  exact hne (outputData_inj hlen hsame).1

/-- The bytes whose hash is to stand at a position after `ws`: those of an output of the trace `i +
1` positions before. -/
def source (ws : List Bytes) : Option Nat → Bytes
  | none => []
  | some i => ws.getD (ws.length - 1 - i) [] ++ putUint32 i

def fill (hash : Bytes → Bytes) : List Bytes → List (Option Nat) → List Bytes
  | ws, [] => ws
  | ws, tag :: rest => fill hash (ws ++ [hash (source ws tag)]) rest

theorem fill_spec (ts : List (Option Nat)) (ws : List Bytes) :
    ∃ new, fill hash ws ts = ws ++ new ∧ new.length = ts.length ∧
      ∀ k tag, ts[k]? = some tag → new[k]? = some (hash (source (ws ++ new.take k) tag)) := by
  induction ts generalizing ws with
  | nil => exact ⟨[], (append_nil ws).symm, rfl, fun k tag h => absurd h (by simp)⟩
  | cons t ts ih =>
    obtain ⟨new, hfill, hlength, hnew⟩ := ih (ws ++ [hash (source ws t)])
    refine ⟨hash (source ws t) :: new, ?_, by simp [hlength], ?_⟩
    · rw [fill, hfill, append_assoc]
      rfl
    intro k tag hk
    cases k with
    | zero =>
      injection hk with hk
      rw [hk]
      simp
    | succ k =>
      have h := hnew k tag hk
      rw [append_assoc] at h
      exact h

/-- A trace whose identifier stands at position `p`, with empty outputs. -/
def traceAt (ws : List Bytes) (merged : List (Option Nat)) (p : Nat) (outs : List (List Bytes)) :
    Trace :=
  .mk [] [] [source (ws.take p) (merged.getD p none)] [] (outs.map fun l => ⟨l, []⟩) [] [] [] [] []

def tracesFrom (ws : List Bytes) (merged : List (Option Nat)) : Nat → Labels → List Trace
  | _, [] => []
  | p, outs :: c => traceAt ws merged p outs :: tracesFrom ws merged (p + 1 + outs.length) c

theorem labels_tracesFrom (ws : List Bytes) (merged : List (Option Nat)) (p : Nat) (c : Labels) :
    (⟨tracesFrom ws merged p c⟩ : Transaction).labels = c := by
  unfold Transaction.labels
  induction c generalizing p with
  | nil => rfl
  | cons outs c ih =>
    show (traceAt ws merged p outs :: tracesFrom ws merged (p + 1 + outs.length) c).map _ = _
    rw [map_cons, ih]
    congr 1
    show (outs.map _).map _ = outs
    rw [map_map]
    exact map_id outs

def slotAt (ws : List Bytes) (k : Nat) (tag : Option Nat) : Slot :=
  (tag.map fun i => (i, source (ws.take k) (some i)), ws.getD k [])

/-- **The transaction for some tags has their identifiers**, if they are among the merged ones. -/
theorem slots_tracesFrom {ws : List Bytes} {merged : List (Option Nat)}
    (hlength : ws.length = merged.length)
    (hws : ∀ k tag, merged[k]? = some tag → ws[k]? = some (hash (source (ws.take k) tag)))
    (p : Nat) (c : Labels) (hp : p + (tags c).length ≤ merged.length)
    (hc : ∀ k i, (tags c)[k]? = some (some i) → merged[p + k]? = some (some i)) :
    (tracesFrom ws merged p c).flatMap (Trace.slots hash) =
      (tags c).mapIdx fun k tag => slotAt ws (p + k) tag := by
  induction c generalizing p with
  | nil => rfl
  | cons outs c ih =>
    have htags : tags (outs :: c) =
        (none :: (List.range outs.length).map some) ++ tags c := flatMap_cons
    rw [htags] at hp hc ⊢
    have hhead : (none :: (List.range outs.length).map some : List (Option Nat)).length =
        1 + outs.length := by simp [Nat.add_comm]
    rw [length_append, hhead] at hp
    show (traceAt ws merged p outs :: tracesFrom ws merged (p + 1 + outs.length) c).flatMap _ = _
    rw [flatMap_cons, ih (p + 1 + outs.length) (by omega), mapIdx_append, hhead]
    · congr 1
      · -- The trace itself, and its outputs.
        have hpm : merged[p]? = some (merged.getD p none) := by
          rw [getD_eq_getElem?_getD, getElem?_eq_getElem (by omega)]
          rfl
        have hid : makeTraceID hash (traceAt ws merged p outs) = ws.getD p [] := by
          have hbytes : ((traceAt ws merged p outs).pieces hash).flatten =
              source (ws.take p) (merged.getD p none) := by
            simp [Trace.pieces, traceAt, Trace.contractID, Trace.procedure,
              Trace.inputObjectVersionIDs, Trace.inputReferenceVersionIDs, Trace.dependencies]
          have hword : ws.getD p [] = hash (source (ws.take p) (merged.getD p none)) := by
            rw [getD_eq_getElem?_getD, hws p _ hpm]
            rfl
          rw [makeTraceID_eq, hbytes, hword]
        unfold Trace.slots
        rw [hid, mapIdx_cons]
        congr 1
        apply ext_getElem
        · simp [traceAt, Trace.outputObjects]
        intro i h1 h2
        have hi : i < outs.length := by simpa [traceAt, Trace.outputObjects] using h1
        have hi' : i < (traceAt ws merged p outs).outputObjects.length := by
          simpa [traceAt, Trace.outputObjects] using hi
        have hsource : source (ws.take (p + (i + 1))) (some i) = ws.getD p [] ++ putUint32 i := by
          have htake : (ws.take (p + (i + 1))).length = p + (i + 1) := by
            rw [length_take]
            omega
          show (ws.take (p + (i + 1))).getD (_ - 1 - i) [] ++ _ = _
          rw [htake, show p + (i + 1) - 1 - i = p by omega, getD_eq_getElem?_getD,
            getElem?_take_of_lt (by omega), ← getD_eq_getElem?_getD]
        have hdata : outputData hash (traceAt ws merged p outs) i ⟨outs[i], []⟩ =
            source (ws.take (p + (i + 1))) (some i) := by
          unfold outputData
          rw [hid, hsource, append_nil]
        have hmerged := hc (i + 1) i (by
          rw [cons_append, getElem?_cons_succ, getElem?_append_left (by simpa using hi)]
          simp [hi])
        have hword := hws (p + (i + 1)) (some i) hmerged
        rw [getElem_mapIdx, getElem_mapIdx, getElem_map, getElem_range]
        have hout : (traceAt ws merged p outs).outputObjects[i] = ⟨outs[i], []⟩ := by
          simp [traceAt, Trace.outputObjects]
        rw [hout, hdata]
        unfold slotAt
        rw [getD_eq_getElem?_getD, hword]
        rfl
      · congr 1
        funext k tag
        rw [show p + (k + (1 + outs.length)) = p + 1 + outs.length + k by omega]
    intro k i hk
    have h := hc (k + (1 + outs.length)) i (by
      rw [getElem?_append_right (by rw [hhead]; omega), hhead, Nat.add_sub_cancel]
      exact hk)
    rwa [show p + (k + (1 + outs.length)) = p + 1 + outs.length + k by omega] at h

/-- **Different labels without a conflict**: some transactions with these labels have the same
bytes, for every hash function. -/
theorem exists_same_bytes_tx (hash : Bytes → Bytes) {c c' : Labels}
    (hlength : (tags c).length = (tags c').length)
    (hagree : ∀ i j, (some i, some j) ∈ (tags c).zip (tags c') → i = j) :
    ∃ tx ty : Transaction, tx.labels = c ∧ ty.labels = c' ∧ tx.bytes hash = ty.bytes hash ∧
      NoCollision hash tx ty := by
  -- A position is that of an output as soon as it is in one of the two.
  let merged := List.zipWith (fun a b => a <|> b) (tags c) (tags c')
  obtain ⟨ws, _, hwlen, hws⟩ := @fill_spec hash merged []
  have hmlen : merged.length = (tags c).length := by
    rw [length_zipWith, hlength, Nat.min_self]
  have hws : ∀ k tag, merged[k]? = some tag → ws[k]? = some (hash (source (ws.take k) tag)) :=
    fun k tag hk => hws k tag hk
  have hleft : ∀ k i, (tags c)[k]? = some (some i) → merged[0 + k]? = some (some i) := by
    intro k i hk
    obtain ⟨hlt, hk⟩ := List.getElem?_eq_some_iff.mp hk
    rw [Nat.zero_add, getElem?_zipWith, getElem?_eq_getElem hlt,
      getElem?_eq_getElem (hlength ▸ hlt), hk]
    rfl
  have hright : ∀ k i, (tags c')[k]? = some (some i) → merged[0 + k]? = some (some i) := by
    intro k i hk
    obtain ⟨hlt, hk⟩ := List.getElem?_eq_some_iff.mp hk
    have hlt' : k < (tags c).length := hlength ▸ hlt
    rw [Nat.zero_add, getElem?_zipWith, getElem?_eq_getElem hlt, getElem?_eq_getElem hlt', hk]
    cases hfirst : (tags c)[k] with
    | none => rfl
    | some j =>
      have hmem : (some j, some i) ∈ (tags c).zip (tags c') :=
        mem_iff_getElem.mpr ⟨k, by simp [hlt, hlt'], by rw [getElem_zip, hfirst, hk]⟩
      rw [hagree j i hmem]
      rfl
  have hslots := @slots_tracesFrom hash _ _ hwlen hws 0 c (by omega) hleft
  have hslots' := @slots_tracesFrom hash _ _ hwlen hws 0 c' (by omega) hright
  have hwords : ∀ d : Labels, (tags d).length = ws.length →
      ((tags d).mapIdx fun k tag => slotAt ws (0 + k) tag).map Prod.snd = ws := by
    intro d hd
    rw [map_mapIdx]
    apply ext_getElem
    · simpa using hd
    intro k h1 h2
    rw [getElem_mapIdx]
    show ws.getD (0 + k) [] = _
    rw [Nat.zero_add, getD_eq_getElem?_getD, getElem?_eq_getElem h2]
    rfl
  have hbytes : (⟨tracesFrom ws merged 0 c⟩ : Transaction).bytes hash =
      (⟨tracesFrom ws merged 0 c'⟩ : Transaction).bytes hash := by
    unfold Transaction.bytes Transaction.slots
    rw [hslots, hslots', hwords c (by omega), hwords c' (by omega)]
  refine ⟨⟨tracesFrom ws merged 0 c⟩, ⟨tracesFrom ws merged 0 c'⟩, labels_tracesFrom ws merged 0 c,
    labels_tracesFrom ws merged 0 c', hbytes, fun _ => hbytes, ?_⟩
  intro x hx i data j data' hi hj _
  unfold Transaction.slots at hx
  rw [hslots, hslots'] at hx
  obtain ⟨k, hk, heq⟩ := mem_iff_getElem.mp hx
  rw [getElem_zip, getElem_mapIdx, getElem_mapIdx] at heq
  rw [← heq] at hi hj
  obtain ⟨i', htag, hi⟩ := Option.map_eq_some_iff.mp hi
  obtain ⟨j', htag', hj⟩ := Option.map_eq_some_iff.mp hj
  injection hi with _ hdata
  injection hj with _ hdata'
  rw [length_zip, length_mapIdx, length_mapIdx] at hk
  have hmem : (some i', some j') ∈ (tags c).zip (tags c') :=
    mem_iff_getElem.mpr ⟨k, by rw [length_zip]; exact hk, by
      rw [getElem_zip, htag, htag']⟩
  rw [← hdata, ← hdata', hagree i' j' hmem]

theorem bindsTx_iff (hlen : ∀ data, (hash data).length = 32) (c c' : Labels)
    (hc : ∀ outs ∈ c, outs.length ≤ 2 ^ 32) (hc' : ∀ outs ∈ c', outs.length ≤ 2 ^ 32) :
    (∀ tx ty : Transaction, tx.labels = c → ty.labels = c' → BindsTx hash tx ty) ↔
      c = c' ∨ (tags c).length ≠ (tags c').length ∨ Conflict c c' := by
  have hbound : ∀ d : Labels, (∀ outs ∈ d, outs.length ≤ 2 ^ 32) → ∀ i, some i ∈ tags d →
      i < 2 ^ 32 := by
    intro d hd i hi
    obtain ⟨outs, houts, hi⟩ := mem_flatMap.mp hi
    have hi : i < outs.length := by simpa using hi
    exact Nat.lt_of_lt_of_le hi (hd outs houts)
  constructor
  · intro h
    by_contra hcon
    obtain ⟨hne, hcon⟩ := not_or.mp hcon
    obtain ⟨hlength, hconf⟩ := not_or.mp hcon
    have hagree : ∀ i j, (some i, some j) ∈ (tags c).zip (tags c') → i = j := by
      intro i j hmem
      obtain ⟨hi, hj⟩ := of_mem_zip hmem
      have hmod : i % 2 ^ 32 = j % 2 ^ 32 := by
        by_contra hne
        exact hconf ⟨i, j, hmem, hne⟩
      rwa [Nat.mod_eq_of_lt (hbound c hc i hi), Nat.mod_eq_of_lt (hbound c' hc' j hj)] at hmod
    obtain ⟨tx, ty, htx, hty, hbytes, hcol⟩ := exists_same_bytes_tx hash (not_not.mp hlength) hagree
    have hout := h tx ty htx hty hcol (by rw [txIDOf_eq, txIDOf_eq, hbytes])
    exact hne (by rw [← htx, ← hty, @labels_of_outcome hash, hout, ← @labels_of_outcome hash])
  intro h tx ty htx hty hcol hid
  rw [txIDOf_eq, txIDOf_eq] at hid
  have hbytes := hcol.bytes hid
  rcases h with hcc | hlength | hconf
  · exact outcome_congr hlen (by rw [htx, hty, hcc]) hbytes hcol
  · have hwords := congrArg List.length (words_eq hlen hbytes)
    rw [length_map, length_map] at hwords
    rw [← htx, ← hty, ← @Transaction.tags_slots hash tx, ← @Transaction.tags_slots hash ty,
      length_map, length_map] at hlength
    exact absurd hwords hlength
  · rw [← htx, ← hty] at hconf
    exact absurd hconf (not_conflict hlen hbytes hcol)

end Transactions

/-! ## §3. What identifiers bind. -/

/-- **Identifiers bind traces of the same shape and transactions with the same labels**, and, for
every hash function, no others with the same number of bytes and no outputs with different numbers
at one position. -/
theorem identifiers_bind_iff (hash : Bytes → Bytes) (hlen : ∀ data, (hash data).length = 32) :
    (∀ a b : TraceShape, (∀ t u : Trace, t.shape = a → u.shape = b → Binds hash t u) ↔
        a = b ∨ a.size ≠ b.size) ∧
      ∀ c c' : Labels, (∀ outs ∈ c, outs.length ≤ 2 ^ 32) → (∀ outs ∈ c', outs.length ≤ 2 ^ 32) →
        ((∀ tx ty : Transaction, tx.labels = c → ty.labels = c' → BindsTx hash tx ty) ↔
          c = c' ∨ (tags c).length ≠ (tags c').length ∨ Conflict c c') :=
  ⟨binds_iff hlen, bindsTx_iff hlen⟩

/-- A function with results of 32 bytes: two traces of one shape. -/
theorem identifiers_bind_padded :
    let hash : Bytes → Bytes := fun data => (data ++ List.replicate 32 0).take 32
    Binds hash (.mk [1] [2] [[3]] [] [] [] [] [] [] [])
      (.mk [1] [2] [[4]] [] [] [] [] [] [] []) := by
  intro hash
  have hlen : ∀ data, (hash data).length = 32 := by
    intro data
    rw [length_take, length_append, length_replicate]
    omega
  exact ((identifiers_bind_iff hash hlen).1 ⟨1, 1, [1], [], 0⟩ ⟨1, 1, [1], [], 0⟩).mpr (.inl rfl)
    _ _ rfl rfl

def consuming : Trace := .mk [7] [8] [[1]] [] [] [] [] [] [] []

def referring : Trace := .mk [7] [8] [] [[1]] [] [] [] [] [] []

def creating : Trace := .mk [7] [8] [[1]] [] [⟨[], [5]⟩] [] [] [] [] []

def labelling : Trace := .mk [7] [8] [[1]] [] [⟨[[6]], [5]⟩] [] [] [] [] []

def posing (hash : Bytes → Bytes) : Trace :=
  .mk [] [] [outputData hash creating 0 ⟨[], [5]⟩] [] [] [] [] [] [] []

/-- **Identifiers that do not bind**, with every hash function: an input of one trace is a reference
of the other; an output of one transaction is a trace of the other; two transactions differ in a
label. -/
theorem identifiers_unbound (hash : Bytes → Bytes) : ¬ Binds hash consuming referring ∧
      ¬ BindsTx hash ⟨[creating]⟩ ⟨[consuming, posing hash]⟩ ∧
      ¬ BindsTx hash ⟨[creating]⟩ ⟨[labelling]⟩ := by
  refine ⟨?_, ?_, ?_⟩
  · intro h
    have hsame := h (fun _ => rfl) (by rw [makeTraceID_eq, makeTraceID_eq]; rfl)
    exact absurd hsame.inputs (by decide)
  · intro h
    -- The identifier of the second trace is that of the output, as both hash the same bytes.
    have hid : makeTraceID hash (posing hash) = hash (outputData hash creating 0 ⟨[], [5]⟩) := by
      rw [makeTraceID_eq]
      congr 1
      show [] ++ ([] ++ (outputData hash creating 0 ⟨[], [5]⟩ ++ [])) = _
      rw [nil_append, nil_append, append_nil]
    have hbytes : (⟨[creating]⟩ : Transaction).bytes hash =
        (⟨[consuming, (posing hash)]⟩ : Transaction).bytes hash := by
      show [makeTraceID hash creating, _].flatten =
        [makeTraceID hash consuming, makeTraceID hash (posing hash)].flatten
      rw [hid, makeTraceID_eq, makeTraceID_eq]
      rfl
    have hcol : NoCollision hash ⟨[creating]⟩ ⟨[consuming, (posing hash)]⟩ := by
      refine ⟨fun _ => hbytes, ?_⟩
      intro x hx i data j data' hi hj _
      obtain rfl | rfl :
          x = ((none, makeTraceID hash creating), (none, makeTraceID hash consuming)) ∨
          x = ((some (0, outputData hash creating 0 ⟨[], [5]⟩), hash _),
            (none, makeTraceID hash (posing hash))) := by
        have hx : x ∈ [_, _] := hx
        simpa using hx
      · exact absurd hi (by simp)
      · exact absurd hj (by simp)
    have hout := h hcol (by rw [txIDOf_eq, txIDOf_eq, hbytes])
    have hcount : 1 = 2 := congrArg List.length hout
    exact absurd hcount (by decide)
  intro h
  have hdata : outputData hash labelling 0 ⟨[[6]], [5]⟩ =
      outputData hash creating 0 ⟨[], [5]⟩ := by
    unfold outputData
    rw [makeTraceID_eq, makeTraceID_eq]
    rfl
  have hcol : NoCollision hash ⟨[creating]⟩ ⟨[labelling]⟩ := by
    refine ⟨fun _ => rfl, ?_⟩
    intro x hx i data j data' hi hj _
    obtain rfl | rfl : x = ((none, makeTraceID hash creating), (none, makeTraceID hash labelling)) ∨
        x = ((some (0, outputData hash creating 0 ⟨[], [5]⟩), hash _),
          (some (0, outputData hash labelling 0 ⟨[[6]], [5]⟩), hash _)) := by
      have hx : x ∈ [_, _] := hx
      simpa using hx
    · exact absurd hi (by simp)
    rw [hdata, hi] at hj
    injection hj with hj
    injection hj
  have hout := h hcol (by rw [txIDOf_eq, txIDOf_eq]; rfl)
  have hlabels : [[([] : List Bytes)]] = [[[[6]]]] :=
    congrArg (List.map fun x : Bytes × List Object => x.2.map Object.labels) hout
  exact absurd hlabels (by decide)

/-- A function with results of 32 bytes. -/
theorem identifiers_shared :
    let hash : Bytes → Bytes := fun data => (data ++ List.replicate 32 0).take 32
    ¬ Binds hash consuming referring ∧ ¬ BindsTx hash ⟨[creating]⟩ ⟨[consuming, posing hash]⟩ ∧
      ¬ BindsTx hash ⟨[creating]⟩ ⟨[labelling]⟩ :=
  identifiers_unbound _

end Chainspace.Sbac
