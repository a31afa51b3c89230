import Rochallor.Data.Decode
import Rochallor.Definition.Types

/-! # The JSON form of definitions

    `parser.go`, `conditional_branches.go` and the struct tags of `types.go`:
    how a document is read into a `WorkflowDefinition` and how one is written.
    The fields of a struct are listed under their JSON names in the order of
    the declaration, which is the order the encoder writes them in.
-/

namespace Rochallor

/-! ## Texts -/

/-- Reads the `type` field of a boundary event. -/
def BoundaryEventType.ofText (t : String) : BoundaryEventType :=
  if t = "TIMER" then .timer else .unsupported t

def BoundaryEventType.text : BoundaryEventType → String
  | .timer => "TIMER"
  | .unsupported t => t

/-- Reads the `type` field of a property. -/
def SchemaType.ofText (t : String) : SchemaType :=
  if t = "string" then .string
  else if t = "number" then .number
  else if t = "integer" then .integer
  else if t = "boolean" then .boolean
  else .unsupported t

/-- A field of a string type, read with `ofText` and written with `text`. -/
def decodeText {α : Type} (ofText : String → α) (text : α → String) (old : α) (j : Json) :
    Except String α := do
  return ofText (← decodeString (text old) j)

/-! ## Branches -/

/-- The loop of `ConditionalBranches.UnmarshalJSON`: a key is appended each
    time it occurs. -/
def decodeBranches : ConditionalBranches → List (String × Json) →
    Except String ConditionalBranches
  | c, [] => .ok c
  | c, (key, j) :: rest =>
    match decodeString "" j with
    | .error e => .error ("conditionalNextSteps[" ++ quote key ++ "]: " ++ e)
    | .ok val => decodeBranches ⟨c.exprs ++ [key], GoMap.set c.targets key val⟩ rest

/-- `ConditionalBranches.UnmarshalJSON`.  What was there before is dropped. -/
def ConditionalBranches.unmarshalJSON (_ : ConditionalBranches) :
    Json → Except String ConditionalBranches
  | .obj members => decodeBranches ⟨[], []⟩ members
  | j => .error ("conditionalNextSteps: expected JSON object, got " ++ j.kind)

/-- `ConditionalBranches.MarshalJSON`: the members in the order of `exprs`. -/
def ConditionalBranches.marshalJSON (c : ConditionalBranches) : Json :=
  .obj (c.exprs.map fun key => (key, .str (c.target key)))

/-! ## Reading -/

section Fields

variable (strict : Bool)

def boundaryEventFields : List (Field BoundaryEvent) :=
  [.of "type" (decodeText BoundaryEventType.ofText BoundaryEventType.text) (·.type)
      fun e v => { e with type := v },
    .of "duration" decodeString (·.duration) fun e v => { e with duration := v },
    .of "interrupting" decodeBool (·.interrupting) fun e v => { e with interrupting := v },
    .of "targetStepId" decodeString (·.targetStepId) fun e v => { e with targetStepId := v }]

/-- The zero value of a boundary event. -/
def BoundaryEvent.zero : BoundaryEvent := ⟨.unsupported "", "", false, ""⟩

def ruleFields : List (Field DecisionTableRule) :=
  [.of "when" (decodeMap (decodeString "")) (·.conditions) fun r v => { r with conditions := v },
    .of "outputs" (decodeMap .ok) (·.outputs) fun r v => { r with outputs := v }]

def decisionTableFields : List (Field DecisionTable) :=
  [.of "rules" (decodeSlice (decodeStruct strict ruleFields "definition.DecisionTableRule") ⟨[], []⟩)
      (·.rules) fun t v => { t with rules := v }]

/-- The one field of a property descriptor. -/
def propertyFields : List (Field SchemaType) :=
  [.of "type" (decodeText SchemaType.ofText SchemaType.text) id fun _ v => v]

def decodeProperty : Json → Except String SchemaType :=
  decodeStruct strict propertyFields "definition.PropertyDescriptor" (.unsupported "")

def schemaFields : List (Field Schema) :=
  [.of "properties" (decodeMap (decodeProperty strict)) (·.properties)
      fun s v => { s with properties := v },
    .of "required" (decodeSlice decodeString "") (·.required) fun s v => { s with required := v }]

def decodeSchema : Option Schema → Json → Except String (Option Schema) :=
  decodePointer (decodeStruct strict (schemaFields strict) "definition.Schema") ⟨[], []⟩

/-- The zero value of a step. -/
def WorkflowStep.zero : WorkflowStep where
  id := ""
  name := ""
  type := .unsupported ""

def stepFields : List (Field WorkflowStep) :=
  [.of "id" decodeString (·.id) fun s v => { s with id := v },
    .of "name" decodeString (·.name) fun s v => { s with name := v },
    .of "type" (decodeText StepType.ofText StepType.text) (·.type) fun s v => { s with type := v },
    .of "description" decodeString (·.description) fun s v => { s with description := v },
    .of "nextStep" decodeString (·.nextStep) fun s v => { s with nextStep := v },
    .of "parallelNextSteps" (decodeSlice decodeString "") (·.parallelNextSteps)
      fun s v => { s with parallelNextSteps := v },
    .of "joinStep" decodeString (·.joinStep) fun s v => { s with joinStep := v },
    .of "conditionalNextSteps" (decodePointer ConditionalBranches.unmarshalJSON ⟨[], []⟩)
      (·.conditionalNextSteps) fun s v => { s with conditionalNextSteps := v },
    .of "transformations" (decodeMap .ok) (·.transformations)
      fun s v => { s with transformations := v },
    .of "decisionTable" (decodePointer (decodeStruct strict (decisionTableFields strict)
        "definition.DecisionTable") ⟨[]⟩)
      (·.decisionTable) fun s v => { s with decisionTable := v },
    .of "hitPolicy" decodeString (·.hitPolicy) fun s v => { s with hitPolicy := v },
    .of "jobType" decodeString (·.jobType) fun s v => { s with jobType := v },
    .of "delegateClass" decodeString (·.delegateClass) fun s v => { s with delegateClass := v },
    .of "retryCount" decodeInt (·.retryCount) fun s v => { s with retryCount := v },
    .of "boundaryEvents" (decodeSlice (decodeStruct strict boundaryEventFields
        "definition.BoundaryEvent") .zero)
      (·.boundaryEvents) fun s v => { s with boundaryEvents := v },
    .of "outputs_schema" (decodeSchema strict) (·.outputsSchema)
      fun s v => { s with outputsSchema := v }]

/-- The zero value of a definition. -/
def WorkflowDefinition.zero : WorkflowDefinition where
  id := ""
  name := ""
  steps := []

def definitionFields : List (Field WorkflowDefinition) :=
  [.of "id" decodeString (·.id) fun d v => { d with id := v },
    .of "version" decodeInt (·.version) fun d v => { d with version := v },
    .of "name" decodeString (·.name) fun d v => { d with name := v },
    .of "description" decodeString (·.description) fun d v => { d with description := v },
    .of "autoStartNextWorkflow" decodeBool (·.autoStartNextWorkflow)
      fun d v => { d with autoStartNextWorkflow := v },
    .of "nextWorkflowId" decodeString (·.nextWorkflowId) fun d v => { d with nextWorkflowId := v },
    .of "steps" (decodeSlice (decodeStruct strict (stepFields strict) "definition.WorkflowStep")
        .zero)
      (·.steps) fun d v => { d with steps := v },
    .of "metadata" (decodeMap .ok) (·.metadata) fun d v => { d with metadata := v },
    .of "input_schema" (decodeSchema strict) (·.inputSchema)
      fun d v => { d with inputSchema := v }]

/-- `json.Unmarshal` into a definition. -/
def decodeDefinition (j : Json) : Except String WorkflowDefinition :=
  decodeStruct strict (definitionFields strict) "definition.WorkflowDefinition" .zero j

end Fields

/-- `strings.Contains`. -/
def containsText (s part : String) : Bool :=
  s.toList.tails.any fun rest => part.toList.isPrefixOf rest

/-- `translateLegacyDecisionTableFieldErr`. -/
def translateLegacyDecisionTableFieldErr (msg : String) : String :=
  if containsText msg "unknown field \"then\"" then
    "parse: step (DECISION_TABLE) rules[]: field \"then\" is no longer supported; see the 005→007 migration note in docs/workflow-format.md"
  else if containsText msg "unknown field \"defaultNextStep\"" then
    "parse: step (DECISION_TABLE): field \"defaultNextStep\" is no longer supported; see the 005→007 migration note in docs/workflow-format.md"
  else "parse: " ++ msg

/-- `Parse`. -/
def parse (doc : Json) : Except String WorkflowDefinition :=
  match decodeDefinition true doc with
  | .ok d => .ok d
  | .error msg => .error (translateLegacyDecisionTableFieldErr msg)

/-! ## Writing -/

def BoundaryEvent.member (e : BoundaryEvent) : String → Option Json
  | "type" => some (.str e.type.text)
  | "duration" => omitString e.duration
  | "interrupting" => some (.bool e.interrupting)
  | "targetStepId" => some (.str e.targetStepId)
  | _ => none

def BoundaryEvent.marshal (e : BoundaryEvent) : Json :=
  .obj (membersOf ["type", "duration", "interrupting", "targetStepId"] e.member)

def DecisionTableRule.member (r : DecisionTableRule) : String → Option Json
  | "when" => omitMap (r.conditions.map fun c => (c.1, .str c.2))
  | "outputs" => omitMap r.outputs
  | _ => none

def DecisionTableRule.marshal (r : DecisionTableRule) : Json :=
  .obj (membersOf ["when", "outputs"] r.member)

def DecisionTable.marshal (t : DecisionTable) : Json :=
  .obj [("rules", .arr (t.rules.map (·.marshal)))]

def Schema.member (s : Schema) : String → Option Json
  | "properties" =>
    some (.obj (sortByKey (s.properties.map fun p => (p.1, .obj [("type", .str p.2.text)]))))
  | "required" => omitItems (s.required.map .str)
  | _ => none

def Schema.marshal (s : Schema) : Json :=
  .obj (membersOf ["properties", "required"] s.member)

def WorkflowStep.member (s : WorkflowStep) : String → Option Json
  | "id" => some (.str s.id)
  | "name" => some (.str s.name)
  | "type" => some (.str s.type.text)
  | "description" => omitString s.description
  | "nextStep" => omitString s.nextStep
  | "parallelNextSteps" => omitItems (s.parallelNextSteps.map .str)
  | "joinStep" => omitString s.joinStep
  | "conditionalNextSteps" => s.conditionalNextSteps.map (·.marshalJSON)
  | "transformations" => omitMap s.transformations
  | "decisionTable" => s.decisionTable.map (·.marshal)
  | "hitPolicy" => omitString s.hitPolicy
  | "jobType" => omitString s.jobType
  | "delegateClass" => omitString s.delegateClass
  | "retryCount" => omitInt s.retryCount
  | "boundaryEvents" => omitItems (s.boundaryEvents.map (·.marshal))
  | "outputs_schema" => s.outputsSchema.map (·.marshal)
  | _ => none

def WorkflowStep.names : List String :=
  ["id", "name", "type", "description", "nextStep", "parallelNextSteps", "joinStep",
    "conditionalNextSteps", "transformations", "decisionTable", "hitPolicy", "jobType",
    "delegateClass", "retryCount", "boundaryEvents", "outputs_schema"]

def WorkflowStep.marshal (s : WorkflowStep) : Json :=
  .obj (membersOf names s.member)

def WorkflowDefinition.member (d : WorkflowDefinition) : String → Option Json
  | "id" => some (.str d.id)
  | "version" => omitInt d.version
  | "name" => some (.str d.name)
  | "description" => omitString d.description
  | "autoStartNextWorkflow" => omitBool d.autoStartNextWorkflow
  | "nextWorkflowId" => omitString d.nextWorkflowId
  | "steps" => some (.arr (d.steps.map (·.marshal)))
  | "metadata" => omitMap d.metadata
  | "input_schema" => d.inputSchema.map (·.marshal)
  | _ => none

def WorkflowDefinition.names : List String :=
  ["id", "version", "name", "description", "autoStartNextWorkflow", "nextWorkflowId", "steps",
    "metadata", "input_schema"]

/-- `json.Marshal` of a definition. -/
def WorkflowDefinition.marshal (d : WorkflowDefinition) : Json :=
  .obj (membersOf names d.member)

end Rochallor
