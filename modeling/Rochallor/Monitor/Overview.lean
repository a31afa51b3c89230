import Rochallor.Monitor.ProcessInstances
import Mathlib.Data.List.Dedup

/-! # The overview of current steps

    `overview.queries.ts`, `steps`: for each current step of a definition, how
    many running instances stand on it and how many of them have done so for
    longer than an age.  The cutoff is a moment of the database's clock; the
    answer holds it as a `Date`.
-/

namespace Rochallor.Monitor

/-! ## Parameters -/

/-- `positiveInteger`. -/
def positiveInteger (value : Option String) (fallback maximum : Nat) (name : String) :
    Except String Nat :=
  let refused := .error (name ++ " must be an integer between 1 and " ++ maximum.repr)
  match value.elim (some fallback) digits with
  | some number => if 1 ≤ number ∧ number ≤ maximum then .ok number else refused
  | none => refused

/-- `JSON.stringify([definitionId, version, age])`. -/
structure StepsScope where
  definitionId : String
  version : Nat
  age : Nat
  deriving DecidableEq

structure OverviewCursor where
  v : Nat
  scope : StepsScope
  id : String
  version : Nat
  deriving DecidableEq

/-- `encodeCursor`. -/
def encodeOverviewCursor (scope : StepsScope) (id : String) : OverviewCursor :=
  ⟨1, scope, id, 0⟩

/-- `decodeCursor`, of which `steps` uses the id. -/
def decodeOverviewCursor (value : Option OverviewCursor) (scope : StepsScope) :
    Except String String :=
  match value with
  | none => .ok ""
  | some cursor =>
    if cursor.scope ≠ scope ∨ cursor.v ≠ 1 ∨ cursor.id.isEmpty ∨ 2147483647 < cursor.version then
      .error "Invalid Overview cursor"
    else .ok cursor.id

structure OverviewQuery where
  cursor : Option OverviewCursor := none
  pageSize : Option String := none
  definitionId : Option String := none
  definitionVersion : Option String := none
  minStepAgeSeconds : Option String := none

/-! ## Counting -/

/-- A row of the join: an instance, one of its current steps, and the latest
    execution of that step. -/
structure CurrentStep where
  instanceId : String
  stepId : String
  execution : Option StepExecutionRow

/-- `ACTIVE` or `WAITING` under this version of the definition. -/
def WorkflowInstanceRow.current (row : WorkflowInstanceRow) (definitionId : String)
    (version : Nat) : Bool :=
  row.definitionId == definitionId && row.definitionVersion == version &&
    (row.status == "ACTIVE" || row.status == "WAITING")

/-- The rows the query groups by their step. -/
def Content.currentSteps (db : Content) (definitionId : String) (version : Nat)
    (afterStep : String) : List CurrentStep :=
  (db.instances.filter fun i => i.current definitionId version).flatMap fun i =>
    (i.currentStepIds.filter fun s => afterStep.isEmpty || decide (afterStep < s)).map fun s =>
      ⟨i.id, s, db.latestExecution i.id s⟩

/-- The latest execution is `RUNNING`. -/
def CurrentStep.running (row : CurrentStep) : Bool :=
  row.execution.any fun e => e.status == "RUNNING"

/-- And it started before the cutoff. -/
def CurrentStep.aged (cutoff : Int) (row : CurrentStep) : Bool :=
  row.execution.any fun e => e.status == "RUNNING" && decide (e.startedAt < cutoff)

/-- `count(DISTINCT i.id) FILTER (WHERE p)`. -/
def countInstances (p : CurrentStep → Bool) (rows : List CurrentStep) : Nat :=
  ((rows.filter p).map (·.instanceId)).dedup.length

structure StepCount where
  stepId : String
  instances : Nat
  aged : Nat
  ageUnavailable : Nat
  deriving DecidableEq

/-- The counts of one group. -/
def stepCount (rows : List CurrentStep) (cutoff : Int) (stepId : String) : StepCount :=
  let group := rows.filter fun row => row.stepId == stepId
  { stepId := stepId
    instances := countInstances (fun _ => true) group
    aged := countInstances (·.aged cutoff) group
    ageUnavailable := countInstances (fun row => !row.running) group }

/-! ## The answer -/

structure StepsAnswer where
  observedAt : Date
  stepStartedBefore : Date
  definitionId : String
  definitionVersion : Nat
  minStepAgeSeconds : Nat
  scope : String
  items : List StepCount
  nextCursor : Option OverviewCursor
  deriving DecidableEq

/-- `transaction_timestamp() - age * interval '1 second'`. -/
def cutoffOf (now : Int) (age : Nat) : Int :=
  now - age * 1000000

/-- `OverviewQueries.steps`. -/
def steps (db : Content) (now : Int) (query : OverviewQuery) : Except String StepsAnswer := do
  match truthy query.definitionId, query.definitionVersion with
  | some definitionId, some definitionVersion =>
    let version ← positiveInteger (some definitionVersion) 1 2147483647 "Definition version"
    let age ← positiveInteger query.minStepAgeSeconds 1800 2147483647 "Minimum step age"
    let limit ← positiveInteger query.pageSize 50 100 "Page size"
    let scope : StepsScope := ⟨definitionId, version, age⟩
    let afterStep ← decodeOverviewCursor query.cursor scope
    let current := db.currentSteps definitionId version afterStep
    let stepIds := ((current.map (·.stepId)).dedup.insertionSort (· ≤ ·)).take (limit + 1)
    let rows := stepIds.map (stepCount current (cutoffOf now age))
    let items := rows.take limit
    return {
      observedAt := toDate now
      stepStartedBefore := toDate (cutoffOf now age)
      definitionId := definitionId
      definitionVersion := version
      minStepAgeSeconds := age
      scope := "Distinct ACTIVE/WAITING instances per current step; step counts can overlap"
      items := items
      nextCursor := if limit < rows.length then items.getLast?.map fun item =>
        encodeOverviewCursor scope item.stepId else none }
  | _, _ => throw "Definition ID and version are required"

end Rochallor.Monitor
