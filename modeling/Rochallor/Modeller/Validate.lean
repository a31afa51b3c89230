import Rochallor.Framework.Cycle
import Rochallor.Modeller.Schema

/-! # The modeller's validator

    `workflow-modeller/src/domain/validate.ts`.  Every check returns its
    diagnostics in the order the source pushes them.  The loops over the step
    graph get as much fuel as they can need.
-/

namespace Rochallor.Modeller

/-! ## Patterns -/

/-- `ID_PATTERN`: `/^[A-Za-z0-9_:\-]+$/`. -/
def matchesIdPattern (s : String) : Bool :=
  !s.isEmpty && s.toList.all fun c => c.isAlphanum || c == '_' || c == ':' || c == '-'

/-- `(\d+U)?` at the head of the text. -/
def skipUnit (unit : Char) (cs : List Char) : List Char :=
  match cs.span Char.isDigit with
  | (_ :: _, c :: rest) => if c == unit then rest else cs
  | _ => cs

/-- `(\d+(?:\.\d+)?S)?` at the head of the text. -/
def skipSeconds (cs : List Char) : List Char :=
  match cs.span Char.isDigit with
  | (_ :: _, '.' :: fraction) =>
    match fraction.span Char.isDigit with
    | (_ :: _, 'S' :: rest) => rest
    | _ => cs
  | (_ :: _, 'S' :: rest) => rest
  | _ => cs

/-- `ISO_DURATION_PATTERN`:
    `/^P(?!$)(\d+Y)?(\d+M)?(\d+W)?(\d+D)?(T(?=\d)(\d+H)?(\d+M)?(\d+(?:\.\d+)?S)?)?$/`.
    No two units can match at one place, so nothing has to be tried twice. -/
def matchesIsoDuration (s : String) : Bool :=
  match s.toList with
  | 'P' :: date =>
    !date.isEmpty &&
      match skipUnit 'D' (skipUnit 'W' (skipUnit 'M' (skipUnit 'Y' date))) with
      | [] => true
      | 'T' :: time =>
        (time.head?.any Char.isDigit) && (skipSeconds (skipUnit 'M' (skipUnit 'H' time))).isEmpty
      | _ => false
  | _ => false

/-! ## Steps -/

namespace Step

def type (step : Step) : StepType :=
  step.variant.type

/-- `step.boundaryEvents`, where the type of the step has them. -/
def boundaryEvents (step : Step) : List BoundaryEvent :=
  match step.variant with
  | .serviceTask _ _ _ _ events | .userTask _ _ events | .wait _ events => events.getD []
  | _ => []

end Step

/-- `indexSteps`: the last step with the id. -/
def WorkflowDefinition.index (d : WorkflowDefinition) (id : StepId) : Option Step :=
  d.steps.reverse.find? fun step => step.id == id

/-- A member that is a step id, unless it is missing or empty. -/
def nextTargets (nextStep : Option StepId) : List StepId :=
  (nextStep.filter fun id => !id.isEmpty).toList

/-- `outgoingTargets`. -/
def outgoingTargets (step : Step) : List StepId :=
  match step.variant with
  | .serviceTask nextStep _ _ _ _ | .userTask nextStep _ _ => nextTargets nextStep
  | .wait nextStep _ | .transformation nextStep _ | .joinGateway nextStep => [nextStep]
  | .decision branches => branches.map (·.2)
  | .decisionTable _ nextStep _ => nextTargets (some nextStep)
  | .parallelGateway parallelNextSteps _ => parallelNextSteps
  | .endStep => []

/-- `allOutgoing`. -/
def allOutgoing (step : Step) : List StepId :=
  outgoingTargets step ++ step.boundaryEvents.map (·.targetStepId)

/-! ## The definition -/

/-- An error about a step. -/
def Step.error (step : Step) (code : DiagnosticCode) (message field : String) : Diagnostic :=
  { code := code, severity := .error, message := message, nodeId := some step.id,
    field := some field }

def checkIdFormat (d : WorkflowDefinition) : List Diagnostic :=
  if d.id.isEmpty || !matchesIdPattern d.id || decide (256 < utf16Length d.id) then
    [{ code := .idFormat, severity := .error, field := some "id",
       message := "Workflow id must match [A-Za-z0-9_:-]+ and be ≤ 256 characters." }]
  else []

def checkNameRequired (d : WorkflowDefinition) : List Diagnostic :=
  (if blank d.name then
    [{ code := .nameRequired, severity := .error, field := some "name",
       message := "Workflow name is required." }]
   else []) ++
  (d.steps.filter fun step => blank step.name).map fun step =>
    step.error .nameRequired ("Step \"" ++ step.id ++ "\" must have a name.") "name"

def checkStepsNonEmpty (d : WorkflowDefinition) : List Diagnostic :=
  if d.steps.isEmpty then
    [{ code := .stepsNonempty, severity := .error, field := some "steps",
       message := "Workflow must contain at least one step." }]
  else []

/-- The loop of `checkStepIdsUnique`. -/
def duplicateIds : List StepId → List Step → List Diagnostic
  | _, [] => []
  | seen, step :: rest =>
    (if seen.contains step.id then
      [step.error .stepIdUnique ("Duplicate step id: \"" ++ step.id ++ "\".") "id"]
     else []) ++ duplicateIds (step.id :: seen) rest

def checkStepIdsUnique (d : WorkflowDefinition) : List Diagnostic :=
  duplicateIds [] d.steps

def checkStepIdsPresent (d : WorkflowDefinition) : List Diagnostic :=
  (d.steps.zipIdx.filter fun s => blank s.1.id).map fun s =>
    { code := .stepIdRequired, severity := .error, field := some "id",
      message := "Step at index " ++ toString s.2 ++ " is missing an id." }

def checkNextWorkflowConsistency (d : WorkflowDefinition) : List Diagnostic :=
  let enabled := d.autoStartNextWorkflow == some true
  let hasId := d.nextWorkflowId.any fun id => !blank id
  if enabled != hasId then
    [{ code := .nextWorkflowConsistency, severity := .error, field := some "nextWorkflowId",
       message := "autoStartNextWorkflow must be set together with a non-empty nextWorkflowId." }]
  else []

/-! ## The shape of a step -/

/-- A `nextStep` that must not be blank. -/
def requireNext (step : Step) (nextStep : StepId) (code : DiagnosticCode) : List Diagnostic :=
  if blank nextStep then
    [step.error code (step.type.text ++ " \"" ++ step.id ++ "\" must declare nextStep.") "nextStep"]
  else []

/-- `forbiddenFields`. -/
def forbiddenFields : List String :=
  ["conditionalNextSteps", "transformations", "parallelNextSteps", "joinStep", "jobType",
    "delegateClass", "retryCount", "boundaryEvents"]

/-- The warnings about rules after the first catch-all. -/
def unreachableRules (step : Step) :
    Option Nat → List (DecisionTableRule × Nat) → List Diagnostic
  | _, [] => []
  | some first, (_, i) :: rest =>
    { code := .decisionTableUnreachableRule, severity := .warning, nodeId := some step.id,
      field := some "decisionTable.rules", ruleIndex := some i,
      message := "Rule " ++ toString (i + 1) ++ " is unreachable: rule " ++ toString (first + 1) ++
        " is a catch-all and matches first." } :: unreachableRules step (some first) rest
  | none, (rule, i) :: rest =>
    unreachableRules step (if rule.conditions.isEmpty then some i else none) rest

/-- The checks of a `DECISION_TABLE`. -/
def checkDecisionTableShape (step : Step) (hitPolicy : String) (nextStep : StepId)
    (table : DecisionTable) : List Diagnostic :=
  let label := "DECISION_TABLE \"" ++ step.id ++ "\" "
  (if table.rules.isEmpty then
    [step.error .decisionTableHasRules (label ++ "must declare at least one rule.")
      "decisionTable.rules"]
   else []) ++
  requireNext step nextStep .decisionTableHasNext ++
  (if hitPolicies.contains hitPolicy then []
   else
    [step.error .decisionTableHitPolicyUnknown (label ++ "has unknown hitPolicy \"" ++ hitPolicy ++
      "\". Allowed: U, F, A, R, C, C+, C#, C>, C<.") "hitPolicy"]) ++
  (match hitPolicy.toList with
   | c₀ :: c₁ :: _ =>
     if c₀ != 'C' && ['+', '#', '>', '<'].contains c₁ then
       [step.error .decisionTableAggregatorOnNonC (label ++ "hitPolicy \"" ++ hitPolicy ++
         "\" applies an aggregator to a non-Collect policy.") "hitPolicy"]
     else []
   | _ => []) ++
  ((table.rules.zipIdx.filter fun r => (prop r.1.extra "then").isSome).map fun r =>
    { step.error .decisionTableLegacyThen (label ++ "rule " ++ toString (r.2 + 1) ++
        " carries legacy \"then\" field — use the step-level \"nextStep\" plus per-rule \"outputs\" (see workflow-format.md, \"Migration from 005\").")
        "decisionTable.rules" with ruleIndex := some r.2 }) ++
  (if (prop table.extra "defaultNextStep").isSome then
    [step.error .decisionTableLegacyDefaultNextStep (label ++
      "carries legacy \"defaultNextStep\" field — no-match is a runtime failure now (see workflow-format.md, \"Migration from 005\").")
      "decisionTable.defaultNextStep"]
   else []) ++
  ((forbiddenFields.filter fun f => (prop step.extra f).isSome).map fun f =>
    step.error .stepFieldInvalid ("Field \"" ++ f ++ "\" is not valid on a DECISION_TABLE step.") f) ++
  unreachableRules step none table.rules.zipIdx

def checkStepVariantShape (step : Step) : List Diagnostic :=
  match step.variant with
  | .decision branches =>
    if branches.isEmpty then
      [step.error .decisionHasBranches
        ("DECISION \"" ++ step.id ++ "\" must declare at least one branch.") "conditionalNextSteps"]
    else []
  | .decisionTable hitPolicy nextStep table => checkDecisionTableShape step hitPolicy nextStep table
  | .transformation nextStep transformations =>
    requireNext step nextStep .transformationHasNext ++
    (if transformations.isEmpty then
      [step.error .transformationHasEntries ("TRANSFORMATION \"" ++ step.id ++
        "\" must declare at least one transformation entry.") "transformations"]
     else [])
  | .wait nextStep _ => requireNext step nextStep .waitHasNext
  | .parallelGateway parallelNextSteps joinStep =>
    (if parallelNextSteps.length < 2 then
      [step.error .parallelMinBranches ("PARALLEL_GATEWAY \"" ++ step.id ++
        "\" must declare at least two parallel branches.") "parallelNextSteps"]
     else []) ++
    (if blank joinStep then
      [step.error .parallelHasJoin
        ("PARALLEL_GATEWAY \"" ++ step.id ++ "\" must declare a joinStep.") "joinStep"]
     else [])
  | .joinGateway nextStep => requireNext step nextStep .joinHasNext
  | .serviceTask .. | .userTask .. | .endStep => []

/-! ## References -/

section Step

variable (d : WorkflowDefinition) (step : Step)

/-- `missing`, unless the target is a step. -/
def checkRef (target : StepId) (field : String) (branchKey : Option String) : List Diagnostic :=
  if (d.index target).isSome then []
  else
    [{ step.error .refResolves ("Step \"" ++ step.id ++ "\" references missing step \"" ++ target ++
        "\".") field with branchKey := branchKey }]

def checkRefsResolve : List Diagnostic :=
  match step.variant with
  | .serviceTask nextStep _ _ _ _ | .userTask nextStep _ _ =>
    (nextTargets nextStep).flatMap fun target => checkRef d step target "nextStep" none
  | .wait nextStep _ | .transformation nextStep _ | .joinGateway nextStep
  | .decisionTable _ nextStep _ =>
    (nextTargets (some nextStep)).flatMap fun target => checkRef d step target "nextStep" none
  | .decision branches =>
    branches.flatMap fun b => checkRef d step b.2 "conditionalNextSteps" (some b.1)
  | .parallelGateway parallelNextSteps joinStep =>
    (parallelNextSteps.flatMap fun target => checkRef d step target "parallelNextSteps" none) ++
    (nextTargets (some joinStep)).flatMap fun target => checkRef d step target "joinStep" none
  | .endStep => []

/-- The checks of one boundary event. -/
def checkBoundaryEvent (event : BoundaryEvent) (i : Nat) : List Diagnostic :=
  let error (code : DiagnosticCode) (message : String) : Diagnostic :=
    { step.error code ("Boundary event " ++ toString i ++ " on \"" ++ step.id ++ "\" " ++ message)
        "boundaryEvents" with boundaryIndex := some i }
  (if event.type == "TIMER" then [] else [error .boundaryType "must be of type TIMER."]) ++
  (if event.duration.isEmpty || !matchesIsoDuration event.duration then
    [error .boundaryDuration "must have a non-empty ISO-8601 duration."] else []) ++
  (if event.targetStepId.isEmpty || (d.index event.targetStepId).isNone then
    [error .boundaryTargetResolves ("references missing step \"" ++ event.targetStepId ++ "\".")]
   else [])

/-- `checkBoundaryEvents`.  On a type without them the member is one that was
    passed through. -/
def checkBoundaryEvents : List Diagnostic :=
  match step.variant with
  | .serviceTask .. | .userTask .. | .wait .. =>
    step.boundaryEvents.zipIdx.flatMap fun e => checkBoundaryEvent d step e.1 e.2
  | _ =>
    match prop step.extra "boundaryEvents" with
    | some (.arr _) =>
      [step.error .boundaryParentSupports ("Step \"" ++ step.id ++ "\" of type " ++ step.type.text ++
        " cannot have boundary events.") "boundaryEvents"]
    | _ => []

/-! ## Expressions -/

/-- `collectKnownVariables`. -/
def collectKnownVariables : List String :=
  d.steps.flatMap fun step =>
    match step.variant with
    | .transformation _ transformations => transformations.map (·.1)
    | _ => []

/-- `remapCellCode`. -/
def remapCellCode : DiagnosticCode → DiagnosticCode
  | .decisionExprSyntax => .dtCellExprSyntax
  | .decisionExprNonBoolean => .dtCellExprNonBoolean
  | .decisionExprUnknownIdent => .dtCellExprUnknownIdent
  | code => code

variable (peggyParse : String → Except String Expr)

/-- The cells and outputs of one rule. -/
def checkRuleExpressions (rule : DecisionTableRule) (i : Nat) : List Diagnostic :=
  let ctx : Diagnostic := step.error .decisionExprSyntax "" "decisionTable.rules"
  (rule.conditions.flatMap fun cell =>
    if blank cell.2 then []
    else (lintDecisionExpression peggyParse cell.2 (collectKnownVariables d) ctx).map fun x =>
      { x with code := remapCellCode x.code, ruleIndex := some i, cellColumn := some cell.1 }) ++
  (rule.outputs.flatMap fun output =>
    match output.2 with
    | .str value =>
      (lintTransformationExpression peggyParse value { ctx with branchKey := some output.1 }).map
        fun x => { x with
          code := if x.code = .transformationExprSyntax then .dtOutputExprSyntax else x.code
          ruleIndex := some i }
    | _ => [])

def checkExpressions : List Diagnostic :=
  match step.variant with
  | .decision branches =>
    branches.flatMap fun b =>
      lintDecisionExpression peggyParse b.1 (collectKnownVariables d)
        { step.error .decisionExprSyntax "" "conditionalNextSteps" with branchKey := some b.1 }
  | .transformation _ transformations =>
    transformations.flatMap fun t =>
      match t.2 with
      | .str value =>
        lintTransformationExpression peggyParse value
          { step.error .decisionExprSyntax "" "transformations" with branchKey := some t.1 }
      | _ => []
  | .decisionTable _ _ table =>
    table.rules.zipIdx.flatMap fun r => checkRuleExpressions d step peggyParse r.1 r.2
  | _ => []

end Step

/-! ## The graph -/

def checkParallelJoinTarget (d : WorkflowDefinition) : List Diagnostic :=
  d.steps.flatMap fun step =>
    match step.variant with
    | .parallelGateway _ joinStep =>
      match d.index joinStep with
      | none => []
      | some join =>
        if join.type = .joinGateway then []
        else
          [step.error .parallelHasJoin ("PARALLEL_GATEWAY \"" ++ step.id ++
            "\" must reference a JOIN_GATEWAY (got " ++ join.type.text ++ ").") "joinStep"]
    | _ => []

/-- The steps an edge of `outgoing` leads to. -/
def WorkflowDefinition.successors (d : WorkflowDefinition) (outgoing : Step → List StepId)
    (id : StepId) : List StepId :=
  match d.index id with
  | none => []
  | some step => outgoing step

/-- The edges of the whole definition: what a loop can push. -/
def WorkflowDefinition.edges (d : WorkflowDefinition) (outgoing : Step → List StepId) : Nat :=
  ((d.steps.map (·.id)).map fun id => (d.successors outgoing id).length).sum

/-- The steps the loop of `checkReachability` visits. -/
def reachableSteps (d : WorkflowDefinition) : List StepId :=
  match d.steps with
  | [] => []
  | entry :: _ =>
    Search.loop (d.successors allOutgoing) (·.isEmpty) (1 + d.edges allOutgoing) [entry.id] []

def checkReachability (d : WorkflowDefinition) : List Diagnostic :=
  if d.steps.isEmpty then []
  else
    let visited := reachableSteps d
    ((d.steps.filter fun step => !visited.contains step.id).map fun step =>
      { code := .allReachable, severity := .error, nodeId := some step.id,
        message := "Step \"" ++ step.id ++ "\" is not reachable from the entry step." }) ++
    (if visited.any fun id => (d.index id).any fun step => step.type == .endStep then []
     else
      [{ code := .endReachable, severity := .error,
         message := "No END step is reachable from the entry step." }])

def checkNestedParallel (d : WorkflowDefinition) : List Diagnostic :=
  d.steps.flatMap fun step =>
    match step.variant with
    | .parallelGateway parallelNextSteps joinStep =>
      let visited := Search.loop (d.successors outgoingTargets)
        (fun id => id.isEmpty || id == joinStep)
        (parallelNextSteps.length + d.edges outgoingTargets) parallelNextSteps.reverse []
      visited.flatMap fun id =>
        match d.index id with
        | some s =>
          if s.type = .parallelGateway then
            [{ code := .noNestedParallel, severity := .error, nodeId := some s.id,
               message := "PARALLEL_GATEWAY \"" ++ s.id ++ "\" is nested inside \"" ++ step.id ++
                 "\" without first reaching its join." }]
          else []
        | none => []
    | _ => []

/-- The search of `checkGraphCycle`, going down at most `depth` edges.  A target
    that is not the id of a step has no colour. -/
def findCycle (d : WorkflowDefinition) (depth : Nat) : Option (Search.Marking StepId) :=
  let ids := d.steps.map (·.id)
  Search.dfsAll (d.successors allOutgoing) depth ids (Search.start ids)

def checkGraphCycle (d : WorkflowDefinition) : List Diagnostic :=
  match (findCycle d (d.steps.length + 1)).bind (·.onCycle.head?) with
  | none => []
  | some node =>
    [{ code := .graphCycle, severity := .warning, nodeId := some node,
       message := "Cycle detected in step graph (involves \"" ++ node ++ "\")." }]

def checkUnknownFields (d : WorkflowDefinition) : List Diagnostic :=
  (if d.extra.isEmpty then []
   else
    [{ code := .unknownFieldsPresent, severity := .warning,
       message := "Unknown top-level field(s): " ++ ", ".intercalate (d.extra.map (·.1)) ++ "." }]) ++
  (d.steps.filter fun step => !step.extra.isEmpty).map fun step =>
    { code := .unknownFieldsPresent, severity := .warning, nodeId := some step.id,
      message := "Step \"" ++ step.id ++ "\" has unknown field(s): " ++
        ", ".intercalate (step.extra.map (·.1)) ++ "." }

/-! ## Validate -/

/-- `validate`.  `checkStepTypesValid` is left out: a step has one of the known
    types. -/
def validate (peggyParse : String → Except String Expr) (d : WorkflowDefinition) :
    List Diagnostic :=
  checkIdFormat d ++ checkNameRequired d ++ checkStepsNonEmpty d ++ checkStepIdsUnique d ++
  checkStepIdsPresent d ++ checkNextWorkflowConsistency d ++
  (d.steps.flatMap fun step =>
    checkStepVariantShape step ++ checkRefsResolve d step ++ checkBoundaryEvents d step ++
    checkExpressions d step peggyParse) ++
  checkParallelJoinTarget d ++ checkReachability d ++ checkNestedParallel d ++
  checkGraphCycle d ++ checkUnknownFields d

/-- The modeller accepts a document that fits the schema and has no error. -/
def accepts (peggyParse : String → Except String Expr) (doc : Json) : Bool :=
  match zWorkflowDefinition doc with
  | none => false
  | some d => (validate peggyParse d).all fun x => x.severity != .error

end Rochallor.Modeller
