import Rochallor.Modeller.Schema

/-! # Editing a workflow

    `domain/graph.ts`, `domain/rename.ts`, the deletion of
    `store/workflowStore.ts` and what `panels/DeleteStepDialog.tsx` does before
    it.  Each goes through the references of a step on its own.
-/

namespace Rochallor.Modeller

/-! ## Edges -/

/-- `EdgeVariant`. -/
inductive EdgeVariant where
  | sequential
  | conditional (expression : String)
  | parallel
  | joinOut
  | boundary (index : Nat)
  deriving DecidableEq, Inhabited, Repr

/-- `GraphEdge`. -/
structure GraphEdge where
  id : String
  /-- `from`. -/
  source : StepId
  /-- `to`. -/
  target : StepId
  variant : EdgeVariant
  sourceHandle : Option String := none
  deriving DecidableEq, Inhabited, Repr

/-- The discriminator of `edgeId`. -/
def EdgeVariant.discriminator : EdgeVariant → String
  | .sequential => "sequential"
  | .conditional expression => "conditional:" ++ expression
  | .parallel => "parallel"
  | .joinOut => "join-out"
  | .boundary index => "boundary:" ++ toString index

/-- `edgeId`; no caller has a key. -/
def edgeId (source target : StepId) (variant : EdgeVariant) : String :=
  source ++ "--" ++ variant.discriminator ++ "-->" ++ target

def makeEdge (source target : StepId) (variant : EdgeVariant) : GraphEdge :=
  ⟨edgeId source target variant, source, target, variant, none⟩

/-- `pushBoundaryEdges`. -/
def boundaryEdges (id : StepId) (events : Option (List BoundaryEvent)) : List GraphEdge :=
  (events.getD []).zipIdx.map fun e => makeEdge id e.1.targetStepId (.boundary e.2)

/-- `pushStepEdges`. -/
def stepEdges (step : Step) : List GraphEdge :=
  match step.variant with
  | .serviceTask nextStep _ _ _ events | .userTask nextStep _ events =>
    ((nextStep.filter fun id => !id.isEmpty).toList.map fun id =>
      makeEdge step.id id .sequential) ++ boundaryEdges step.id events
  | .wait nextStep events => makeEdge step.id nextStep .sequential :: boundaryEdges step.id events
  | .decision branches =>
    branches.map fun b =>
      { makeEdge step.id b.2 (.conditional b.1) with sourceHandle := some ("branch:" ++ b.1) }
  | .decisionTable _ nextStep _ | .transformation nextStep _ =>
    [makeEdge step.id nextStep .sequential]
  | .parallelGateway parallelNextSteps _ =>
    parallelNextSteps.zipIdx.map fun t =>
      { makeEdge step.id t.1 .parallel with sourceHandle := some ("parallel:" ++ toString t.2) }
  | .joinGateway nextStep => [makeEdge step.id nextStep .joinOut]
  | .endStep => []

def toEdges (d : WorkflowDefinition) : List GraphEdge :=
  d.steps.flatMap stepEdges

/-! ## Renaming -/

/-- `(id) => (id === oldId ? newId : id)`. -/
def remap (oldId newId id : StepId) : StepId :=
  if id = oldId then newId else id

/-- `withRemappedBoundary`. -/
def withRemappedBoundary (f : StepId → StepId) (events : Option (List BoundaryEvent)) :
    Option (List BoundaryEvent) :=
  events.map fun events => events.map fun evt => { evt with targetStepId := f evt.targetStepId }

/-- Every reference of a step, mapped. -/
def Variant.mapRefs (f : StepId → StepId) : Variant → Variant
  | .serviceTask nextStep jobType delegateClass retryCount events =>
    .serviceTask (nextStep.map f) jobType delegateClass retryCount (withRemappedBoundary f events)
  | .userTask nextStep jobType events =>
    .userTask (nextStep.map f) jobType (withRemappedBoundary f events)
  | .decision branches => .decision (branches.map fun b => (b.1, f b.2))
  | .decisionTable hitPolicy nextStep table => .decisionTable hitPolicy (f nextStep) table
  | .transformation nextStep transformations => .transformation (f nextStep) transformations
  | .wait nextStep events => .wait (f nextStep) (withRemappedBoundary f events)
  | .parallelGateway parallelNextSteps joinStep =>
    .parallelGateway (parallelNextSteps.map f) (f joinStep)
  | .joinGateway nextStep => .joinGateway (f nextStep)
  | .endStep => .endStep

/-- `remapStep`. -/
def remapStep (oldId newId : StepId) (step : Step) : Step :=
  { step with
    id := if step.id = oldId then newId else step.id
    variant := step.variant.mapRefs (remap oldId newId) }

def renameStepId (d : WorkflowDefinition) (oldId newId : StepId) :
    Except String WorkflowDefinition :=
  if oldId = newId then .ok d
  else if d.steps.any fun s => s.id == newId then
    .error ("Cannot rename \"" ++ oldId ++ "\" → \"" ++ newId ++ "\": step id already exists.")
  else .ok { d with steps := d.steps.map (remapStep oldId newId) }

/-! ## Deleting -/

/-- What an `if` takes for true. -/
def truthy : Json → Bool
  | .null => false
  | .bool b => b
  | .num q _ => GoFloat.ofRat q != .finite 0
  | .str s => !s.isEmpty
  | .arr _ => true
  | .obj _ => true

/-- A member equal to the string. -/
def equalsText (j : Option Json) (s : String) : Bool :=
  match j with
  | some (.str t) => t == s
  | _ => false

/-- `id === removedId ? '' : id`. -/
def scrubNext (removedId id : StepId) : StepId :=
  if id = removedId then "" else id

def scrubEvents (removedId : StepId) (events : Option (List BoundaryEvent)) :
    Option (List BoundaryEvent) :=
  events.map fun events => events.filter fun e => e.targetStepId != removedId

/-- The member `then` of a rule of the format before 007. -/
def scrubRule (removedId : StepId) (r : DecisionTableRule) : DecisionTableRule :=
  if equalsText (prop r.extra "then") removedId then
    { r with extra := GoMap.set r.extra "then" (.str "") }
  else r

/-- The rules, and the member `defaultNextStep` of the format before 007. -/
def scrubTable (removedId : StepId) (table : DecisionTable) : DecisionTable where
  rules := table.rules.map (scrubRule removedId)
  extra :=
    (table.extra.filter fun e => e.1 != "defaultNextStep") ++
      match prop table.extra "defaultNextStep" with
      | some j =>
        if truthy j && !equalsText (some j) removedId then [("defaultNextStep", j)] else []
      | none => []

def Variant.scrub (removedId : StepId) : Variant → Variant
  | .serviceTask nextStep jobType delegateClass retryCount events =>
    .serviceTask (nextStep.map (scrubNext removedId)) jobType delegateClass retryCount
      (scrubEvents removedId events)
  | .userTask nextStep jobType events =>
    .userTask (nextStep.map (scrubNext removedId)) jobType (scrubEvents removedId events)
  | .wait nextStep events => .wait (scrubNext removedId nextStep) (scrubEvents removedId events)
  | .transformation nextStep transformations =>
    .transformation (scrubNext removedId nextStep) transformations
  | .joinGateway nextStep => .joinGateway (scrubNext removedId nextStep)
  | .decision branches => .decision (branches.filter fun b => b.2 != removedId)
  | .decisionTable hitPolicy nextStep table =>
    .decisionTable hitPolicy (scrubNext removedId nextStep) (scrubTable removedId table)
  | .parallelGateway parallelNextSteps joinStep =>
    .parallelGateway (parallelNextSteps.filter fun t => t != removedId)
      (scrubNext removedId joinStep)
  | .endStep => .endStep

/-- `scrubRefs`. -/
def scrubRefs (d : WorkflowDefinition) (removedId : StepId) : WorkflowDefinition :=
  { d with steps := d.steps.map fun step => { step with variant := step.variant.scrub removedId } }

/-- `deleteStep`.  Its renaming of the replacement to itself changes nothing. -/
def deleteStep (d : WorkflowDefinition) (id : StepId) : WorkflowDefinition :=
  scrubRefs { d with steps := d.steps.filter fun s => s.id != id } id

/-! ## The dialog -/

/-- `rewriteRefs`. -/
def rewriteRefs (step : Step) (oldId newId : StepId) : Step :=
  { step with variant := step.variant.mapRefs (remap oldId newId) }

/-- `handleReplaceAndDelete`. -/
def handleReplaceAndDelete (d : WorkflowDefinition) (stepId replacement : StepId) :
    WorkflowDefinition :=
  if stepId.isEmpty || replacement.isEmpty then d
  else deleteStep { d with steps := d.steps.map fun s => rewriteRefs s stepId replacement } stepId

/-- The hits of a `nextStep`. -/
def nextReference (step : Step) (nextStep : Option StepId) (id : StepId) : List String :=
  if nextStep = some id then [step.id ++ ".nextStep"] else []

/-- The hits of the boundary events. -/
def boundaryReferences (step : Step) (events : Option (List BoundaryEvent)) (id : StepId) :
    List String :=
  ((events.getD []).zipIdx.filter fun e => e.1.targetStepId == id).map fun e =>
    step.id ++ ".boundaryEvents[" ++ toString e.2 ++ "].targetStepId"

/-- The hits of one step. -/
def stepReferences (step : Step) (id : StepId) : List String :=
  match step.variant with
  | .serviceTask nextStep _ _ _ events | .userTask nextStep _ events =>
    nextReference step nextStep id ++ boundaryReferences step events id
  | .wait nextStep events =>
    nextReference step (some nextStep) id ++ boundaryReferences step events id
  | .transformation nextStep _ | .joinGateway nextStep | .decisionTable _ nextStep _ =>
    nextReference step (some nextStep) id
  | .decision branches =>
    (branches.filter fun b => b.2 == id).map fun b =>
      step.id ++ ".conditionalNextSteps[\"" ++ b.1 ++ "\"]"
  | .parallelGateway parallelNextSteps joinStep =>
    ((parallelNextSteps.zipIdx.filter fun t => t.1 == id).map fun t =>
      step.id ++ ".parallelNextSteps[" ++ toString t.2 ++ "]") ++
    if joinStep = id then [step.id ++ ".joinStep"] else []
  | .endStep => []

/-- `findReferences`. -/
def findReferences (d : WorkflowDefinition) (id : StepId) : List String :=
  d.steps.flatMap fun step => stepReferences step id

end Rochallor.Modeller
