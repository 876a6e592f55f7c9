/-
  Chainspace.Sbac.Api — the transactions of clients (`sbac/api/models.go`, `sbac/api/validator.go`).

  A client names objects by the base64 text of their version IDs and gives their values in one map.
  `ToSBAC` decodes the names and fills in, for each trace and dependency, the JSON encoding of those
  values. Decoding and encoding are parameters, whose errors the source ignores: a text that is not
  base64 gives what could be decoded of it, and a string always has an encoding.
-/
import Chainspace.Lib.Loop
import Chainspace.Sbac.Types

namespace Chainspace.Sbac.Api

open Chainspace.Lib

/-! ## §1. Requests. -/

/-- How names and values are decoded and encoded. -/
structure Codec where
  /-- `base64.StdEncoding.DecodeString`, its error dropped -/
  decodeString : Bytes → Bytes
  /-- `json.Marshal` of a string -/
  marshalString : Bytes → Bytes

/-- `OutputObject` of a request. -/
structure OutputObject where
  labels : List Bytes
  object : Bytes
  deriving DecidableEq, Repr

/-- `Trace` of a request; a `Dependency` is one. -/
inductive Trace
  | mk (contractID : Bytes) (dependencies : List Trace)
      (inputObjectVersionIDs inputReferenceVersionIDs : List Bytes)
      (outputObjects : List OutputObject) (parameters : List Bytes) (procedure : Bytes)
      (returns : List Bytes)

namespace Trace

/-- The field `Dependencies`. -/
def dependencies : Trace → List Trace
  | mk _ deps _ _ _ _ _ _ => deps

/-- The field `InputObjectVersionIDs`. -/
def inputObjectVersionIDs : Trace → List Bytes
  | mk _ _ ins _ _ _ _ _ => ins

/-- The field `InputReferenceVersionIDs`. -/
def inputReferenceVersionIDs : Trace → List Bytes
  | mk _ _ _ refs _ _ _ _ => refs

/-- The names of all objects a trace reads. -/
def versionIDs (t : Trace) : List Bytes := t.inputObjectVersionIDs ++ t.inputReferenceVersionIDs

/-- A trace is one of the list, or a dependency of one, at any depth. -/
def Within (d : Trace) (ts : List Trace) : Prop := Forest.Within dependencies d ts

end Trace

/-- `Transaction` of a request, its signatures apart. -/
structure Transaction where
  mappings : PMap Bytes Bytes
  traces : List Trace

/-! ## §2. Validation (`validator.go`). -/

/-- What a request is refused with. -/
inductive ValidationError
  | missingInput
  | missingObject (key : Bytes)
  | missingReference (key : Bytes)
  deriving DecidableEq, Repr

/-- The texts of the errors. -/
def ValidationError.message : ValidationError → Bytes
  | .missingInput => text "Missing input version ID"
  | .missingObject key => text "Missing object mapping for key [" ++ key ++ text "]"
  | .missingReference key => text "Missing reference mapping for key [" ++ key ++ text "]"

/-- A loop of `ValidateTrace` over names: the first that has no value is an error. -/
def requireMapped (mappings : PMap Bytes Bytes) (err : Bytes → ValidationError)
    (keys : List Bytes) : Except ValidationError Unit :=
  keys.forM fun key => if (mappings key).isSome then .ok () else .error (err key)

mutual

/-- The loop of `ValidateTrace` over dependencies, and that of `Validate`. -/
def validateTraces (mappings : PMap Bytes Bytes) : List Trace → Except ValidationError Unit
  | [] => .ok ()
  | t :: ts => do
      validateTrace mappings t
      validateTraces mappings ts

/-- `ValidateTrace`: the dependencies, and then the trace itself. -/
def validateTrace (mappings : PMap Bytes Bytes) : Trace → Except ValidationError Unit
  | .mk _ dependencies inputs references _ _ _ _ => do
      validateTraces mappings dependencies
      if inputs = [] then .error .missingInput
      else do
        requireMapped mappings .missingObject inputs
        requireMapped mappings .missingReference references

end

/-- `Validate`. -/
def Transaction.validate (tx : Transaction) : Except ValidationError Unit :=
  validateTraces tx.mappings tx.traces

/-! ## §3. Translation (`models.go`). -/

section ToSBAC
variable (c : Codec) (mappings : PMap Bytes Bytes)

/-- The value the client gives for an object; a missing key reads as the empty string. -/
def valueOf (key : Bytes) : Bytes := c.marshalString ((mappings key).getD [])

mutual

/-- `Trace.ToSBAC`, with the values of its inputs and references filled in. -/
def Trace.toSBAC : Trace → Sbac.Trace
  | .mk contractID dependencies inputs references outputs parameters procedure returns =>
    .mk contractID procedure (inputs.map c.decodeString) (references.map c.decodeString)
      (outputs.map fun v => ⟨v.labels, v.object⟩) parameters returns (tracesToSBAC dependencies)
      (inputs.map (valueOf c mappings)) (references.map (valueOf c mappings))

/-- The translation of dependencies, and of the traces of a request. -/
def tracesToSBAC : List Trace → List Sbac.Trace
  | [] => []
  | t :: ts => t.toSBAC :: tracesToSBAC ts

end

/-- `Transaction.ToSBAC`: a request that is not valid is refused. -/
def Transaction.toSBAC (tx : Transaction) : Except ValidationError Sbac.Transaction := do
  tx.validate
  .ok ⟨tracesToSBAC c tx.mappings tx.traces⟩

end ToSBAC

/-! ## §4. What a translation keeps. -/

section Translation
variable {c : Codec} {mappings : PMap Bytes Bytes}

theorem tracesToSBAC_eq (ts : List Trace) :
    tracesToSBAC c mappings ts = ts.map (Trace.toSBAC c mappings) := by
  induction ts with
  | nil => rw [tracesToSBAC, List.map_nil]
  | cons t ts ih => rw [tracesToSBAC, ih, List.map_cons]

theorem Trace.toSBAC_dependencies (t : Trace) :
    (t.toSBAC c mappings).dependencies = t.dependencies.map (Trace.toSBAC c mappings) := by
  cases t with
  | mk =>
    rw [Trace.toSBAC, tracesToSBAC_eq]
    rfl

theorem Trace.toSBAC_inputs (t : Trace) :
    (t.toSBAC c mappings).inputObjectVersionIDs = t.inputObjectVersionIDs.map c.decodeString ∧
      (t.toSBAC c mappings).inputObjects = t.inputObjectVersionIDs.map (valueOf c mappings) := by
  cases t with
  | mk =>
    exact ⟨rfl, rfl⟩

theorem Trace.toSBAC_references (t : Trace) : (t.toSBAC c mappings).inputReferenceVersionIDs =
        t.inputReferenceVersionIDs.map c.decodeString ∧
      (t.toSBAC c mappings).inputReferences =
        t.inputReferenceVersionIDs.map (valueOf c mappings) := by
  cases t with
  | mk =>
    exact ⟨rfl, rfl⟩

theorem Transaction.toSBAC_traces {tx : Transaction} {sbactx : Sbac.Transaction}
    (h : tx.toSBAC c = .ok sbactx) :
    sbactx.traces = tx.traces.map (Trace.toSBAC c tx.mappings) := by
  obtain ⟨_, _, h⟩ := bind_eq_ok.mp h
  injection h with h
  rw [← h]
  exact tracesToSBAC_eq tx.traces

/-- **The traces of a translated request** are the translations of its traces, at any depth. -/
theorem Transaction.within_toSBAC {tx : Transaction} {sbactx : Sbac.Transaction}
    (h : tx.toSBAC c = .ok sbactx) {d : Sbac.Trace} :
    d.Within sbactx.traces ↔ ∃ t : Trace, t.Within tx.traces ∧ t.toSBAC c tx.mappings = d := by
  rw [Transaction.toSBAC_traces h]
  exact Forest.within_map Trace.toSBAC_dependencies

end Translation

/-! ## §5. Validation covers the tree. -/

section Validation
variable {mappings : PMap Bytes Bytes}

/-- A trace has an input, and all its objects have values. -/
def Trace.Mapped (mappings : PMap Bytes Bytes) (t : Trace) : Prop :=
  t.inputObjectVersionIDs ≠ [] ∧ ∀ id ∈ t.versionIDs, (mappings id).isSome

theorem seq_eq_ok {x y : Except ValidationError Unit} :
    (do x; y) = .ok () ↔ x = .ok () ∧ y = .ok () := by
  rw [bind_eq_ok]
  exact ⟨fun ⟨_, h⟩ => h, fun h => ⟨(), h⟩⟩

theorem requireMapped_iff {err : Bytes → ValidationError} {keys : List Bytes} :
    requireMapped mappings err keys = .ok () ↔ ∀ key ∈ keys, (mappings key).isSome := by
  induction keys with
  | nil => exact ⟨fun _ => nofun, fun _ => rfl⟩
  | cons key keys ih =>
    have hstep : requireMapped mappings err (key :: keys) =
        (if (mappings key).isSome then .ok () else .error (err key)) >>= fun _ =>
          requireMapped mappings err keys := rfl
    rw [hstep, seq_eq_ok, ih, List.forall_mem_cons]
    refine and_congr_left fun _ => ?_
    split
    next hkey => exact ⟨fun _ => hkey, fun _ => rfl⟩
    next hkey => exact ⟨nofun, fun h => absurd h hkey⟩

mutual

theorem validateTraces_iff : ∀ ts : List Trace, validateTraces mappings ts = .ok () ↔
    ∀ d : Trace, d.Within ts → d.Mapped mappings
  | [] => by
    rw [validateTraces]
    exact ⟨fun _ _ hd => absurd hd Forest.not_within_nil, fun _ => rfl⟩
  | t :: ts => by
    rw [validateTraces, seq_eq_ok, validateTrace_iff t, validateTraces_iff ts]
    constructor
    · rintro ⟨⟨hdeps, ht⟩, hts⟩ d hd
      rcases Forest.within_cons.mp hd with rfl | hd | hd
      · exact ht
      · exact hdeps d hd
      · exact hts d hd
    intro h
    exact ⟨⟨fun d hd => h d (.under List.mem_cons_self hd), h t (.here List.mem_cons_self)⟩,
      fun d hd => h d (Forest.within_cons.mpr (.inr (.inr hd)))⟩

theorem validateTrace_iff : ∀ t : Trace, validateTrace mappings t = .ok () ↔
    (∀ d : Trace, d.Within t.dependencies → d.Mapped mappings) ∧ t.Mapped mappings
  | .mk _ deps inputs references .. => by
    rw [validateTrace, seq_eq_ok, validateTraces_iff deps]
    refine and_congr_right fun _ => ?_
    show _ ↔ inputs ≠ [] ∧ ∀ id ∈ inputs ++ references, (mappings id).isSome
    split
    next hnil => exact ⟨nofun, fun h => absurd hnil h.1⟩
    next hinputs =>
      rw [seq_eq_ok, requireMapped_iff, requireMapped_iff, List.forall_mem_append]
      exact ⟨fun h => ⟨hinputs, h⟩, fun h => h.2⟩

end

/-- The objects listed are the encodings of the values of the names. -/
def Encodings (c : Codec) (mappings : PMap Bytes Bytes) (ids objects : List Bytes) : Prop :=
  ∃ values : List Bytes, ids.map mappings = values.map some ∧ objects = values.map c.marshalString

theorem encodings_map (c : Codec) {ids : List Bytes} (h : ∀ id ∈ ids, (mappings id).isSome) :
    Encodings c mappings ids (ids.map (valueOf c mappings)) := by
  refine ⟨ids.map fun id => (mappings id).getD [], ?_, by rw [List.map_map]; rfl⟩
  rw [List.map_map]
  refine List.map_congr_left fun id hid => ?_
  obtain ⟨value, hvalue⟩ := Option.isSome_iff_exists.mp (h id hid)
  rw [Function.comp_apply, hvalue]
  rfl

/-- **A request is valid iff every trace and dependency is mapped; then the translation has the
same tree, with the encodings of the mapped values at each node.** -/
theorem Transaction.validate_iff (c : Codec) (tx : Transaction) :
    (tx.validate = .ok () ↔ ∀ t : Trace, t.Within tx.traces → t.Mapped tx.mappings) ∧
    (tx.validate = .ok () → ∃ sbactx, tx.toSBAC c = .ok sbactx ∧
      sbactx.traces = tx.traces.map (Trace.toSBAC c tx.mappings) ∧
      ∀ t : Trace, t.Within tx.traces →
        (t.toSBAC c tx.mappings).dependencies = t.dependencies.map (Trace.toSBAC c tx.mappings) ∧
        Encodings c tx.mappings t.inputObjectVersionIDs (t.toSBAC c tx.mappings).inputObjects ∧
        Encodings c tx.mappings t.inputReferenceVersionIDs
          (t.toSBAC c tx.mappings).inputReferences) := by
  refine ⟨validateTraces_iff tx.traces, fun hok => ?_⟩
  have htx : tx.toSBAC c = .ok ⟨tracesToSBAC c tx.mappings tx.traces⟩ := by
    rw [Transaction.toSBAC, hok]
    rfl
  refine ⟨_, htx, tracesToSBAC_eq tx.traces, fun t ht => ⟨t.toSBAC_dependencies, ?_⟩⟩
  obtain ⟨hobjects, hrefs⟩ := List.forall_mem_append.mp ((validateTraces_iff _).mp hok t ht).2
  rw [t.toSBAC_inputs.2, t.toSBAC_references.2]
  exact ⟨encodings_map c hobjects, encodings_map c hrefs⟩

end Validation

end Chainspace.Sbac.Api
