import Rochallor.Monitor.ProcessInstances

/-! # The list of incidents

    `incident.queries.ts`.  An incident is a failed step execution of an
    instance that was not cancelled, joined with the instance, its definition,
    the latest job of the execution and the latest execution of the step.
-/

namespace Rochallor.Monitor

structure IncidentFilters where
  definitionId : Option String := none
  jobType : Option String := none
  /-- `from` and `to`. -/
  fromTime : TimeText := .blank
  toTime : TimeText := .blank
  deriving DecidableEq

/-- `validateFilters`. -/
def validateIncidentFilters (filters : IncidentFilters) : Except String Unit := do
  if !validTimes filters.fromTime filters.toTime then throw "Invalid UTC timestamp"
  if !rangeIncreases filters.fromTime filters.toTime then
    throw "Occurrence-time range must increase"

structure IncidentCursor where
  v : Nat
  occurredAt : TimeText
  id : String
  filters : IncidentFilters

/-! ## Rows -/

structure IncidentRow where
  execution : StepExecutionRow
  instanceRow : WorkflowInstanceRow
  definitionName : String
  occurredAt : Int
  relatedJob : Option JobRow
  latest : StepExecutionRow

/-- `DISTINCT ON (step_execution_id) … ORDER BY created_at DESC, id DESC`. -/
def Content.relatedJob (db : Content) (executionId : String) : Option JobRow :=
  Table.latest (fun job => (toLex (job.createdAt, job.id) : Key))
    (db.jobs.filter fun job => job.stepExecutionId == executionId)

/-- The joins on an execution.  Every key is unique, so there is at most one
    row. -/
def incidentRow (db : Content) (execution : StepExecutionRow) : Option IncidentRow := do
  let instanceRow ← db.instances.find? fun i => i.id == execution.instanceId
  let definition ← db.definitions.find? fun d =>
    d.id == instanceRow.definitionId && d.version == instanceRow.definitionVersion
  let latest ← db.latestExecution execution.instanceId execution.stepId
  -- never null for a failed execution
  let occurredAt ← execution.endedAt
  return ⟨execution, instanceRow, definition.name, occurredAt, db.relatedJob execution.id, latest⟩

/-- The conditions `list` collects, but for the one on the cursor. -/
def IncidentFilters.selects (filters : IncidentFilters) (row : IncidentRow) : Bool :=
  row.execution.status == "FAILED" && row.instanceRow.status != "CANCELLED" &&
  (match truthy filters.definitionId with
    | some id => row.instanceRow.definitionId == id
    | none => true) &&
  (match truthy filters.jobType with
    | some jobType => row.relatedJob.any fun job => job.jobType == jobType
    | none => true) &&
  (match filters.fromTime with
    | .utc time => decide (time ≤ row.occurredAt)
    | _ => true) &&
  (match filters.toTime with
    | .utc time => decide (row.occurredAt < time)
    | _ => true)

/-! ## Items -/

structure LatestAttempt where
  executionId : String
  status : String
  attemptNumber : Int

structure IncidentJob where
  id : String
  type : String
  status : String

structure IncidentListItem where
  id : String
  historical : Bool
  latestAttempt : LatestAttempt
  processInstanceId : String
  definitionId : String
  definitionVersion : Int
  definitionName : String
  stepId : String
  stepType : String
  attemptNumber : Int
  occurredAt : Date
  job : Option IncidentJob

/-- `row.job_id && row.job_type && row.job_status`. -/
def incidentJob (job : JobRow) : Option IncidentJob :=
  if job.id.isEmpty || job.jobType.isEmpty || job.status.isEmpty then none
  else some ⟨job.id, job.jobType, job.status⟩

/-- `mapListItem`. -/
def mapListItem (row : IncidentRow) : IncidentListItem where
  id := row.execution.id
  historical := row.execution.id != row.latest.id
  latestAttempt := ⟨row.latest.id, row.latest.status, row.latest.attemptNumber⟩
  processInstanceId := row.execution.instanceId
  definitionId := row.instanceRow.definitionId
  definitionVersion := row.instanceRow.definitionVersion
  definitionName := row.definitionName
  stepId := row.execution.stepId
  stepType := row.execution.stepType
  attemptNumber := row.execution.attemptNumber
  occurredAt := toDate row.occurredAt
  job := row.relatedJob.bind incidentJob

def encodeIncidentCursor (item : IncidentListItem) (filters : IncidentFilters) :
    IncidentCursor where
  v := 1
  occurredAt := toISOString item.occurredAt
  id := item.id
  filters := filters

def decodeIncidentCursor (cursor : IncidentCursor) (filters : IncidentFilters) :
    Except String IncidentCursor :=
  if cursor.v ≠ 1 ∨ !isUtcTimestamp cursor.occurredAt ∨ cursor.id.isEmpty ∨
      cursor.filters ≠ filters then
    .error "Invalid cursor"
  else .ok cursor

def incidentCursorKey (filters : IncidentFilters) (value : IncidentCursor) :
    Except String Key := do
  let cursor ← decodeIncidentCursor value filters
  rowParameters cursor.occurredAt cursor.id

/-! ## The list -/

structure IncidentQuery extends IncidentFilters where
  cursor : Option IncidentCursor := none
  pageSize : Option JsNumber := none

/-- `(execution.ended_at, execution.id)`. -/
def IncidentRow.key (row : IncidentRow) : Key :=
  toLex (row.occurredAt, row.execution.id)

/-- The joined rows. -/
def Content.incidentRows (db : Content) : List IncidentRow :=
  db.executions.filterMap (incidentRow db)

/-- `IncidentQueries.list`. -/
def listIncidents (db : Content) (query : IncidentQuery) :
    Except String (List IncidentListItem × Option IncidentCursor) := do
  let filters := query.toIncidentFilters
  validateIncidentFilters filters
  let limit ← pageSize query.pageSize
  fetchPage (·.key) mapListItem (encodeIncidentCursor · filters) (incidentCursorKey filters)
    db.incidentRows filters.selects limit query.cursor

end Rochallor.Monitor
