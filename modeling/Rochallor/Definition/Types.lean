import Rochallor.Data.Json

/-! # Workflow definitions

    The JSON workflow format as `internal/definition/types.go` declares it:
    a definition is an ordered list of steps, the first of which is the entry
    point, and a step's `type` decides which of its other fields matter.
    An absent string field is the empty string, as in the Go structs.
-/

namespace Rochallor

/-- Step ids are author-chosen strings. -/
abbrev StepId := String

/-- Discriminates the behaviour of a workflow step. -/
inductive StepType where
  | serviceTask
  | userTask
  | decision
  | transformation
  | wait
  | parallelGateway
  | joinGateway
  | endStep
  | decisionTable
  /-- Any other text in the `type` field. -/
  | unsupported (text : String)
  deriving DecidableEq, Inhabited, Repr

namespace StepType

/-- The text of a step type in a definition and in `step_execution.step_type`. -/
def text : StepType → String
  | .serviceTask => "SERVICE_TASK"
  | .userTask => "USER_TASK"
  | .decision => "DECISION"
  | .transformation => "TRANSFORMATION"
  | .wait => "WAIT"
  | .parallelGateway => "PARALLEL_GATEWAY"
  | .joinGateway => "JOIN_GATEWAY"
  | .endStep => "END"
  | .decisionTable => "DECISION_TABLE"
  | .unsupported t => t

/-- Reads the `type` field. -/
def ofText (t : String) : StepType :=
  if t = "SERVICE_TASK" then .serviceTask
  else if t = "USER_TASK" then .userTask
  else if t = "DECISION" then .decision
  else if t = "TRANSFORMATION" then .transformation
  else if t = "WAIT" then .wait
  else if t = "PARALLEL_GATEWAY" then .parallelGateway
  else if t = "JOIN_GATEWAY" then .joinGateway
  else if t = "END" then .endStep
  else if t = "DECISION_TABLE" then .decisionTable
  else .unsupported t

/-- The types `Validate` accepts. -/
def valid : StepType → Bool
  | .unsupported _ => false
  | _ => true

/-- Steps that park an instance until an external callback arrives. -/
def external : StepType → Bool
  | .serviceTask | .userTask | .wait => true
  | _ => false

end StepType

/-- Discriminates boundary events.  Only `TIMER` is in scope. -/
inductive BoundaryEventType where
  | timer
  | unsupported (text : String)
  deriving DecidableEq, Inhabited, Repr

/-- An event that can interrupt, or run alongside, a step while it executes. -/
structure BoundaryEvent where
  type : BoundaryEventType
  /-- ISO-8601 duration, for example `PT30S`. -/
  duration : String
  /-- Whether the timer cancels the step it is attached to. -/
  interrupting : Bool
  targetStepId : StepId
  deriving DecidableEq, Inhabited, Repr

/-- The expression → target map of a `DECISION` step, with the expressions in
    the order of the JSON object it was read from. -/
structure ConditionalBranches where
  exprs : List String
  targets : GoMap StepId
  deriving DecidableEq, Inhabited, Repr

/-- `c.Len()`, on a possibly nil pointer. -/
def ConditionalBranches.len : Option ConditionalBranches → Nat
  | none => 0
  | some c => c.exprs.length

/-- `c.Targets[expr]`: a missing key reads as the empty string. -/
def ConditionalBranches.target (c : ConditionalBranches) (expr : String) : StepId :=
  (c.targets.get expr).getD ""

/-- One row of a decision table. -/
structure DecisionTableRule where
  /-- Input column → boolean cell expression; blank cells are wildcards. -/
  conditions : GoMap String
  /-- Variable name → JSON literal or `${expression}`. -/
  outputs : GoMap Json
  deriving Inhabited

/-- The payload of a `DECISION_TABLE` step. -/
structure DecisionTable where
  rules : List DecisionTableRule
  deriving Inhabited

/-! ## Schemas -/

/-- The primitive types a schema may declare. -/
inductive SchemaType where
  | string
  | number
  | integer
  | boolean
  | unsupported (text : String)
  deriving DecidableEq, Inhabited, Repr

namespace SchemaType

def supported : SchemaType → Bool
  | .unsupported _ => false
  | _ => true

def text : SchemaType → String
  | .string => "string"
  | .number => "number"
  | .integer => "integer"
  | .boolean => "boolean"
  | .unsupported t => t

end SchemaType

/-- The expected shape of a bag of variables. -/
structure Schema where
  properties : GoMap SchemaType
  required : List String
  deriving DecidableEq, Inhabited, Repr

/-! ## Steps and definitions -/

/-- A node of the step graph. -/
structure WorkflowStep where
  id : StepId
  name : String
  type : StepType
  description : String := ""
  nextStep : StepId := ""
  parallelNextSteps : List StepId := []
  joinStep : StepId := ""
  conditionalNextSteps : Option ConditionalBranches := none
  transformations : GoMap Json := []
  decisionTable : Option DecisionTable := none
  hitPolicy : String := ""
  jobType : String := ""
  delegateClass : String := ""
  retryCount : Int := 0
  boundaryEvents : List BoundaryEvent := []
  outputsSchema : Option Schema := none
  deriving Inhabited

/-- A workflow definition.  `version` is 0 on upload and positive on read. -/
structure WorkflowDefinition where
  id : String
  version : Int := 0
  name : String
  description : String := ""
  autoStartNextWorkflow : Bool := false
  nextWorkflowId : String := ""
  steps : List WorkflowStep
  metadata : GoMap Json := []
  inputSchema : Option Schema := none
  deriving Inhabited

end Rochallor
