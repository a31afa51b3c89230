import Rochallor.Modeller.Expression

/-! # The modeller's schema

    `workflow-modeller/src/domain/schema.ts`.  A reader gives the value a zod
    schema returns for a document, or nothing if the document does not fit.
    Every object schema has `.passthrough()`: members it does not list are kept
    unread.
-/

namespace Rochallor.Modeller

/-! ## Definitions -/

/-- `zBoundaryEvent`. -/
structure BoundaryEvent where
  type : String
  duration : String
  interrupting : Bool
  targetStepId : StepId
  extra : GoMap Json
  deriving Inhabited

/-- `zDecisionTableRule`. -/
structure DecisionTableRule where
  /-- `when`. -/
  conditions : GoMap String
  outputs : GoMap Json
  extra : GoMap Json
  deriving Inhabited

/-- `zDecisionTable`. -/
structure DecisionTable where
  rules : List DecisionTableRule
  extra : GoMap Json
  deriving Inhabited

/-- The members of a step that depend on its type. -/
inductive Variant where
  | serviceTask (nextStep jobType delegateClass : Option String) (retryCount : Option Nat)
      (boundaryEvents : Option (List BoundaryEvent))
  | userTask (nextStep jobType : Option String) (boundaryEvents : Option (List BoundaryEvent))
  | decision (conditionalNextSteps : GoMap StepId)
  | decisionTable (hitPolicy : String) (nextStep : StepId) (table : DecisionTable)
  | transformation (nextStep : StepId) (transformations : GoMap Json)
  | wait (nextStep : StepId) (boundaryEvents : Option (List BoundaryEvent))
  | parallelGateway (parallelNextSteps : List StepId) (joinStep : StepId)
  | joinGateway (nextStep : StepId)
  | endStep
  deriving Inhabited

/-- `step.type`. -/
def Variant.type : Variant → StepType
  | .serviceTask .. => .serviceTask
  | .userTask .. => .userTask
  | .decision .. => .decision
  | .decisionTable .. => .decisionTable
  | .transformation .. => .transformation
  | .wait .. => .wait
  | .parallelGateway .. => .parallelGateway
  | .joinGateway .. => .joinGateway
  | .endStep => .endStep

/-- `zStep`.  `extra` has the members passed through. -/
structure Step where
  id : StepId
  name : String
  description : Option String
  variant : Variant
  extra : GoMap Json
  deriving Inhabited

/-- `zWorkflowDefinition`. -/
structure WorkflowDefinition where
  id : String
  version : Option GoFloat
  name : String
  description : Option String
  autoStartNextWorkflow : Option Bool
  nextWorkflowId : Option String
  steps : List Step
  metadata : Option (GoMap Json)
  extra : GoMap Json
  deriving Inhabited

/-- `KNOWN_ROOT_KEYS`. -/
def knownRootKeys : List String :=
  ["id", "version", "name", "description", "autoStartNextWorkflow", "nextWorkflowId", "steps",
    "metadata"]

/-- `KNOWN_STEP_KEYS`. -/
def knownStepKeys : StepType → List String
  | .serviceTask => ["id", "name", "type", "description", "nextStep", "jobType", "delegateClass",
      "retryCount", "boundaryEvents"]
  | .userTask => ["id", "name", "type", "description", "nextStep", "jobType", "boundaryEvents"]
  | .decision => ["id", "name", "type", "description", "conditionalNextSteps"]
  | .decisionTable => ["id", "name", "type", "description", "hitPolicy", "nextStep",
      "decisionTable"]
  | .transformation => ["id", "name", "type", "description", "nextStep", "transformations"]
  | .wait => ["id", "name", "type", "description", "nextStep", "boundaryEvents"]
  | .parallelGateway => ["id", "name", "type", "description", "parallelNextSteps", "joinStep"]
  | .joinGateway => ["id", "name", "type", "description", "nextStep"]
  | .endStep => ["id", "name", "type", "description"]
  | .unsupported _ => []

/-- The members of a boundary event that the schema lists. -/
def boundaryEventKeys : List String := ["type", "duration", "interrupting", "targetStepId"]

/-! ## Readers -/

def zString : Json → Option String
  | .str s => some s
  | _ => none

/-- `z.string().min(1)`. -/
def zNonempty (j : Json) : Option String :=
  (zString j).filter fun s => !s.isEmpty

/-- `z.literal`. -/
def zLiteral (literal : String) (j : Json) : Option String :=
  (zString j).filter (· == literal)

/-- `z.enum`. -/
def zEnum (options : List String) (j : Json) : Option String :=
  (zString j).filter options.contains

def zBoolean : Json → Option Bool
  | .bool b => some b
  | _ => none

/-- `z.number()`.  A literal beyond the doubles reads as an infinity. -/
def zNumber : Json → Option GoFloat
  | .num q _ => some (.ofRat q)
  | _ => none

/-- `z.number().int().nonnegative()`. -/
def zNatural (j : Json) : Option Nat :=
  match zNumber j with
  | some (.finite q) => if q.den = 1 ∧ 0 ≤ q then some q.num.toNat else none
  | _ => none

/-- `zJsonValue`: every JSON value is one of the alternatives. -/
def zJsonValue (j : Json) : Option Json :=
  some j

def zItems {α : Type} (read : Json → Option α) : List Json → Option (List α)
  | [] => some []
  | j :: rest => do
    let a ← read j
    return a :: (← zItems read rest)

/-- `z.array`. -/
def zArray {α : Type} (read : Json → Option α) : Json → Option (List α)
  | .arr items => zItems read items
  | _ => none

def zEntries {α : Type} (read : Json → Option α) : GoMap Json → Option (GoMap α)
  | [] => some []
  | (k, j) :: rest => do
    let a ← read j
    return (k, a) :: (← zEntries read rest)

/-- `z.record`. -/
def zRecord {α : Type} (read : Json → Option α) : Json → Option (GoMap α)
  | .obj members => zEntries read (entries members)
  | _ => none

/-! ## Objects -/

section Objects

variable {α : Type} (members : GoMap Json)

/-- A property an object schema requires. -/
def required (name : String) (read : Json → Option α) : Option α :=
  (prop members name).bind read

/-- A property with `.optional()`. -/
def optional (name : String) (read : Json → Option α) : Option (Option α) :=
  match prop members name with
  | none => some none
  | some j => (read j).map some

/-- The members that are passed through. -/
def passthrough (known : List String) : GoMap Json :=
  (entries members).filter fun e => !known.contains e.1

def zBoundaryEvent : Json → Option BoundaryEvent
  | .obj members => do
    return {
      type := ← required members "type" (zLiteral "TIMER")
      duration := ← required members "duration" zNonempty
      interrupting := ← required members "interrupting" zBoolean
      targetStepId := ← required members "targetStepId" zNonempty
      extra := passthrough members boundaryEventKeys }
  | _ => none

def zServiceTask : Option Variant := do
  return .serviceTask (← optional members "nextStep" zString) (← optional members "jobType" zString)
    (← optional members "delegateClass" zString) (← optional members "retryCount" zNatural)
    (← optional members "boundaryEvents" (zArray zBoundaryEvent))

def zUserTask : Option Variant := do
  return .userTask (← optional members "nextStep" zString) (← optional members "jobType" zString)
    (← optional members "boundaryEvents" (zArray zBoundaryEvent))

def zDecision : Option Variant := do
  return .decision (← required members "conditionalNextSteps" (zRecord zString))

/-- `zHitPolicy`. -/
def hitPolicies : List String := ["U", "F", "A", "R", "C", "C+", "C#", "C>", "C<"]

def zDecisionTableRule : Json → Option DecisionTableRule
  | .obj members => do
    return {
      conditions := (← optional members "when" (zRecord zString)).getD []
      outputs := (← optional members "outputs" (zRecord zJsonValue)).getD []
      extra := passthrough members ["when", "outputs"] }
  | _ => none

/-- `zDecisionTable`: at least one rule. -/
def zDecisionTable : Json → Option DecisionTable
  | .obj members => do
    let rules ← required members "rules" (zArray zDecisionTableRule)
    if rules.isEmpty then none
    else some { rules := rules, extra := passthrough members ["rules"] }
  | _ => none

def zDecisionTableStep : Option Variant := do
  return .decisionTable ((← optional members "hitPolicy" (zEnum hitPolicies)).getD "U")
    (← required members "nextStep" zNonempty) (← required members "decisionTable" zDecisionTable)

def zTransformation : Option Variant := do
  return .transformation (← required members "nextStep" zString)
    (← required members "transformations" (zRecord zJsonValue))

def zWait : Option Variant := do
  return .wait (← required members "nextStep" zString)
    (← optional members "boundaryEvents" (zArray zBoundaryEvent))

def zParallelGateway : Option Variant := do
  return .parallelGateway (← required members "parallelNextSteps" (zArray zString))
    (← required members "joinStep" zString)

def zJoinGateway : Option Variant := do
  return .joinGateway (← required members "nextStep" zString)

/-- The schema of a step type. -/
def zVariant : StepType → Option Variant
  | .serviceTask => zServiceTask members
  | .userTask => zUserTask members
  | .decision => zDecision members
  | .decisionTable => zDecisionTableStep members
  | .transformation => zTransformation members
  | .wait => zWait members
  | .parallelGateway => zParallelGateway members
  | .joinGateway => zJoinGateway members
  | .endStep => some .endStep
  | .unsupported _ => none

/-- `zStep`: the union is discriminated by `type`. -/
def zStep : Json → Option Step
  | .obj members => do
    let type := StepType.ofText (← required members "type" zString)
    return {
      id := ← required members "id" zString
      name := ← required members "name" zString
      description := ← optional members "description" zString
      variant := ← zVariant members type
      extra := passthrough members (knownStepKeys type) }
  | _ => none

def zWorkflowDefinition : Json → Option WorkflowDefinition
  | .obj members => do
    return {
      id := ← required members "id" zString
      version := ← optional members "version" zNumber
      name := ← required members "name" zString
      description := ← optional members "description" zString
      autoStartNextWorkflow := ← optional members "autoStartNextWorkflow" zBoolean
      nextWorkflowId := ← optional members "nextWorkflowId" zString
      steps := ← required members "steps" (zArray zStep)
      metadata := ← optional members "metadata" (zRecord zJsonValue)
      extra := passthrough members knownRootKeys }
  | _ => none

end Objects

/-- A member that the schema does not list is passed through as it is. -/
theorem prop_passthrough {members : GoMap Json} {known : List String} {name : String}
    (h : name ∉ known) : prop (passthrough members known) name = prop members name := by
  have hnodup : ((passthrough members known).map (·.1)).Nodup :=
    (entries_nodup members).sublist (List.filter_sublist.map _)
  have hmem : ∀ j, (name, j) ∈ passthrough members known ↔ prop members name = some j := by
    intro j
    rw [prop, ← mem_entries (e := (name, j))]
    simp [passthrough, h]
  refine Option.ext fun j => ?_
  rw [← hmem j, prop, GoMap.last_eq_get hnodup]
  exact ⟨GoMap.mem_of_get, fun hj => GoMap.get_of_mem hnodup hj⟩

end Rochallor.Modeller
