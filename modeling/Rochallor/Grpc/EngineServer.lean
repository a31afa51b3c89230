import Rochallor.Data.MapOrder
import Rochallor.Definition.Parser
import Rochallor.Definition.Validator

/-! # Definitions over gRPC

    The definition messages of `proto/workflow/v1/engine.proto` and the
    conversions of `internal/api/grpc/engine_server.go`.  An enum is its number,
    known or not, and a map is listed in the order in which the runtime happens
    to visit it.
-/

namespace Rochallor.Grpc

/-! ## Messages -/

/-- `google.protobuf.Value`. -/
inductive PbValue where
  /-- None of the kinds is set. -/
  | unset
  | nullValue
  | numberValue (x : GoFloat)
  | stringValue (s : String)
  | boolValue (b : Bool)
  | structValue (fields : List (String × PbValue))
  | listValue (values : List PbValue)
  deriving Inhabited

/-- `google.protobuf.Struct`. -/
abbrev Struct := GoMap PbValue

structure BoundaryEvent where
  type : Int
  duration : String
  interrupting : Bool
  targetStepId : StepId
  deriving Inhabited

structure DecisionTableRule where
  /-- `when`. -/
  conditions : GoMap String
  /-- `then`. -/
  next : String := ""
  outputs : GoMap PbValue
  deriving Inhabited

structure DecisionTable where
  rules : List DecisionTableRule
  defaultNextStep : String := ""
  deriving Inhabited

structure WorkflowStep where
  id : StepId
  name : String
  type : Int
  description : String := ""
  nextStep : StepId := ""
  parallelNextSteps : List StepId := []
  joinStep : StepId := ""
  conditionalNextSteps : GoMap StepId := []
  transformations : GoMap PbValue := []
  jobType : String := ""
  delegateClass : String := ""
  retryCount : Int := 0
  boundaryEvents : List BoundaryEvent := []
  decisionTable : Option DecisionTable := none
  hitPolicy : String := ""
  outputsSchema : Option Struct := none
  deriving Inhabited

structure WorkflowDefinition where
  id : String
  version : Int := 0
  name : String
  description : String := ""
  autoStartNextWorkflow : Bool := false
  nextWorkflowId : String := ""
  steps : List WorkflowStep
  metadata : Option Struct := none
  inputSchema : Option Struct := none
  deriving Inhabited

/-! ## Values -/

mutual

/-- `AsInterface`.  What is not a JSON number becomes a string. -/
def PbValue.asInterface : PbValue → Value
  | .unset | .nullValue => .null
  | .numberValue (.finite q) => .float (.finite q)
  | .numberValue .posInf => .str "Infinity"
  | .numberValue .negInf => .str "-Infinity"
  | .numberValue .nan => .str "NaN"
  | .stringValue s => .str s
  | .boolValue b => .bool b
  | .structValue fields => .obj (fieldsAsInterface fields)
  | .listValue values => .arr (valuesAsInterface values)

/-- `AsMap`. -/
def fieldsAsInterface : List (String × PbValue) → List (String × Value)
  | [] => []
  | (k, v) :: rest => (k, v.asInterface) :: fieldsAsInterface rest

/-- `AsSlice`. -/
def valuesAsInterface : List PbValue → List Value
  | [] => []
  | v :: rest => v.asInterface :: valuesAsInterface rest

end

mutual

/-- `protojson.Marshal`, which refuses what `AsInterface` makes up for. -/
def PbValue.marshalJSON : PbValue → Except String Json
  | .unset => .error "google.protobuf.Value: none of the oneof fields is set"
  | .nullValue => .ok .null
  | .numberValue (.finite q) => (Value.float (.finite q)).marshal
  | .numberValue .posInf => .error "number_value cannot have +Inf value"
  | .numberValue .negInf => .error "number_value cannot have -Inf value"
  | .numberValue .nan => .error "number_value cannot have NaN value"
  | .stringValue s => .ok (.str s)
  | .boolValue b => .ok (.bool b)
  | .structValue fields => do return .obj (← marshalFields fields)
  | .listValue values => do return .arr (← marshalValues values)

def marshalFields : List (String × PbValue) → Except String (List (String × Json))
  | [] => .ok []
  | (k, v) :: rest => do return (k, ← v.marshalJSON) :: (← marshalFields rest)

def marshalValues : List PbValue → Except String (List Json)
  | [] => .ok []
  | v :: rest => do return (← v.marshalJSON) :: (← marshalValues rest)

end

mutual

/-- `structpb.NewValue` of what `json.Unmarshal` gives. -/
def newValue : Value → PbValue
  | .null => .nullValue
  | .bool b => .boolValue b
  | .int n => .numberValue (.ofRat n)
  | .float x => .numberValue x
  | .str s => .stringValue s
  | .arr items => .listValue (newList items)
  | .obj members => .structValue (newStruct members)

def newList : List Value → List PbValue
  | [] => []
  | v :: rest => newValue v :: newList rest

/-- `structpb.NewStruct`. -/
def newStruct : List (String × Value) → List (String × PbValue)
  | [] => []
  | (k, v) :: rest => (k, newValue v) :: newStruct rest

end

/-! ## Schemas -/

/-- `structToSchema`. -/
def structToSchema : Option Struct → Except String (Option Schema)
  | none => .ok none
  | some s =>
    match marshalFields s with
    | .error e => .error ("schema marshal: " ++ e)
    | .ok members =>
      match decodeStruct false (schemaFields false) "definition.Schema" ⟨[], []⟩ (.obj members) with
      | .error e => .error ("schema unmarshal: " ++ e)
      | .ok sc => .ok (some sc)

/-- `schemaToStruct`. -/
def schemaToStruct (s : Option Schema) : Option Struct := do
  match (← s).marshal.toValue with
  | .ok (.obj m) => some (newStruct m)
  | _ => none

/-! ## Enums -/

/-- `StepType_name`. -/
def stepTypeNames : List String :=
  ["STEP_TYPE_UNSPECIFIED", "STEP_TYPE_SERVICE_TASK", "STEP_TYPE_USER_TASK", "STEP_TYPE_DECISION",
    "STEP_TYPE_TRANSFORMATION", "STEP_TYPE_WAIT", "STEP_TYPE_PARALLEL_GATEWAY",
    "STEP_TYPE_JOIN_GATEWAY", "STEP_TYPE_END", "STEP_TYPE_DECISION_TABLE"]

/-- `BoundaryEventType_name`. -/
def boundaryEventTypeNames : List String :=
  ["BOUNDARY_EVENT_TYPE_UNSPECIFIED", "BOUNDARY_EVENT_TYPE_TIMER"]

/-- `x.String()`: an unknown number is written as a number. -/
def enumString (names : List String) (n : Int) : String :=
  if 0 ≤ n then (names[n.toNat]?).getD (toString n) else toString n

/-- `x.String()[k:]`, which panics on a shorter text. -/
def enumSuffix (names : List String) (k : Nat) (n : Int) : Option String :=
  let text := (enumString names n).toList
  if k ≤ text.length then some (String.ofList (text.drop k)) else none

/-! ## Conversions -/

/-- `json.Marshal(v.AsInterface())` of the entries that have a JSON form. -/
def rawMessages (m : GoMap PbValue) : GoMap Json :=
  m.filterMap fun e => e.2.asInterface.json.map (e.1, ·)

/-- The conversion of a boundary event. -/
def boundaryEventToInternal (pbe : BoundaryEvent) : Option Rochallor.BoundaryEvent := do
  let type ← enumSuffix boundaryEventTypeNames "BOUNDARY_EVENT_TYPE_".length pbe.type
  return {
    type := .ofText type
    duration := pbe.duration
    interrupting := pbe.interrupting
    targetStepId := pbe.targetStepId }

def ruleToInternal (pr : DecisionTableRule) : Rochallor.DecisionTableRule where
  conditions := pr.conditions
  outputs := rawMessages pr.outputs

/-- The body of the loop over the steps. -/
def stepToInternal (ps : WorkflowStep) : Option Rochallor.WorkflowStep := do
  let type ← enumSuffix stepTypeNames "STEP_TYPE_".length ps.type
  let boundaryEvents ← ps.boundaryEvents.mapM boundaryEventToInternal
  return {
    id := ps.id
    name := ps.name
    type := .ofText type
    description := ps.description
    nextStep := ps.nextStep
    parallelNextSteps := ps.parallelNextSteps
    joinStep := ps.joinStep
    conditionalNextSteps :=
      if ps.conditionalNextSteps.isEmpty then none
      else some ⟨ps.conditionalNextSteps.map (·.1), ps.conditionalNextSteps⟩
    jobType := ps.jobType
    delegateClass := ps.delegateClass
    retryCount := ps.retryCount
    hitPolicy := ps.hitPolicy
    boundaryEvents := boundaryEvents
    transformations := rawMessages ps.transformations
    decisionTable := ps.decisionTable.map fun dt => ⟨dt.rules.map ruleToInternal⟩
    -- an error of `structToSchema` is dropped
    outputsSchema := (structToSchema ps.outputsSchema).toOption.join }

/-- `protoDefToInternal`; nothing if it panics. -/
def protoDefToInternal (p : WorkflowDefinition) : Option Rochallor.WorkflowDefinition := do
  let steps ← p.steps.mapM stepToInternal
  return {
    id := p.id
    name := p.name
    description := p.description
    autoStartNextWorkflow := p.autoStartNextWorkflow
    nextWorkflowId := p.nextWorkflowId
    inputSchema := (structToSchema p.inputSchema).toOption.join
    steps := steps }

/-- `int32(n)`. -/
def int32 (n : Int) : Int :=
  (n + 2 ^ 31) % 2 ^ 32 - 2 ^ 31

/-- `internalDefToProto`. -/
def internalDefToProto (d : Rochallor.WorkflowDefinition) : WorkflowDefinition where
  id := d.id
  version := int32 d.version
  name := d.name
  description := d.description
  inputSchema := schemaToStruct d.inputSchema
  steps := []

/-- `UploadDefinition`, up to the definition that is handed to the
    repository. -/
def uploadDefinition (definition : Option WorkflowDefinition) :
    Option (Except String Rochallor.WorkflowDefinition) :=
  match definition with
  | none => some (.error "definition is required")
  | some p => (protoDefToInternal p).map fun d =>
    if (validate d).isEmpty then .ok d
    else .error ("validation errors:\n  " ++ "\n  ".intercalate (validate d))

end Rochallor.Grpc
