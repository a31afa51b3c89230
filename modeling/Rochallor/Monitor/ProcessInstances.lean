import Rochallor.Monitor.Database

/-! # The lists of process instances and of their step executions

    `process-instance.queries.ts`.  A cursor holds the start of the last row of
    a page, its id and what the list was asked for.  Its wire form, the base64
    of its JSON text, is left out, and so is the hash of the filters: the
    cursor carries what would be hashed.
-/

namespace Rochallor.Monitor

/-! ## Filters -/

structure ProcessInstanceFilters where
  definitionId : Option String := none
  definitionVersion : Option String := none
  currentStepId : Option String := none
  stepStartedBefore : Option TimeText := none
  status : List String := []
  businessKey : Option String := none
  /-- `from` and `to`. -/
  fromTime : TimeText := .blank
  toTime : TimeText := .blank
  deriving DecidableEq

/-- `PROCESS_INSTANCE_STATUSES`. -/
def processInstanceStatuses : List String :=
  ["ACTIVE", "WAITING", "COMPLETED", "FAILED", "CANCELLED"]

/-- A definition version is a positive `INT`. -/
def positiveVersion (value : String) : Bool :=
  match digits value with
  | some n => decide (1 ≤ n) && decide (n ≤ 2147483647)
  | none => false

/-- A time range is empty when it does not increase by a millisecond. -/
def rangeIncreases : TimeText → TimeText → Bool
  | .utc a, .utc b => decide (toDate a < toDate b)
  | _, _ => true

/-- The loop over `from` and `to`: one that is given must be a timestamp. -/
def validTimes (fromTime toTime : TimeText) : Bool :=
  [fromTime, toTime].all fun t => t == .blank || isUtcTimestamp t

/-- `validateFilters`. -/
def validateFilters (filters : ProcessInstanceFilters) : Except String Unit := do
  if let some version := filters.definitionVersion then
    if !positiveVersion version || (truthy filters.definitionId).isNone then
      throw "Definition version must be a positive integer with a Definition ID"
  if let some step := filters.currentStepId then
    if step.isEmpty || (truthy filters.definitionId).isNone then
      throw "Current Step ID requires a Definition ID"
  if let some cutoff := filters.stepStartedBefore then
    if (truthy filters.currentStepId).isNone || !isUtcTimestamp cutoff then
      throw "Step-start cutoff requires a Current Step ID and a valid UTC timestamp"
  if filters.status.any fun status => !processInstanceStatuses.contains status then
    throw "Unknown Process Instance status"
  if !validTimes filters.fromTime filters.toTime then throw "Invalid UTC timestamp"
  if !rangeIncreases filters.fromTime filters.toTime then throw "Start-time range must increase"

/-- `filterFingerprint`: the statuses in sorted order. -/
def filterFingerprint (filters : ProcessInstanceFilters) : ProcessInstanceFilters :=
  { filters with status := filters.status.insertionSort (· ≤ ·) }

/-! ## Cursors -/

structure ProcessInstanceCursor where
  v : Nat
  startedAt : TimeText
  id : String
  filters : ProcessInstanceFilters
  deriving DecidableEq

structure ProcessInstanceListItem where
  id : String
  definitionId : String
  definitionVersion : Int
  status : String
  currentStepIds : List String
  startedAt : Date
  completedAt : Option Date
  failureReason : Option String
  businessKey : Option String
  deriving DecidableEq

def encodeCursor (item : ProcessInstanceListItem) (filters : ProcessInstanceFilters) :
    ProcessInstanceCursor where
  v := 1
  startedAt := toISOString item.startedAt
  id := item.id
  filters := filterFingerprint filters

/-- `decodeCursor`.  `Date.parse` reads the text of every date. -/
def decodeCursor (cursor : ProcessInstanceCursor) (filters : ProcessInstanceFilters) :
    Except String ProcessInstanceCursor :=
  if cursor.v ≠ 1 ∨ cursor.id.isEmpty ∨ cursor.filters ≠ filterFingerprint filters then
    .error "Invalid cursor"
  else .ok cursor

/-- The parameters of `(timestamp, id) < (?, ?)` as PostgreSQL reads them. -/
def rowParameters (time : TimeText) (id : String) : Except String Key :=
  match time with
  | .utc micros => .ok (toLex (micros, id))
  | _ => .error "invalid input syntax for type timestamp with time zone"

/-- The key below which a cursor lists. -/
def cursorKey (filters : ProcessInstanceFilters) (value : ProcessInstanceCursor) :
    Except String Key := do
  let cursor ← decodeCursor value filters
  rowParameters cursor.startedAt cursor.id

/-! ## Conditions -/

/-- The `EXISTS` on the latest execution of the step. -/
def runningBefore (db : Content) (instanceId stepId : String) (cutoff : Int) : Bool :=
  match db.latestExecution instanceId stepId with
  | some execution => execution.status == "RUNNING" && decide (execution.startedAt < cutoff)
  | none => false

/-- The conditions `list` collects, but for the one on the cursor. -/
def ProcessInstanceFilters.selects (filters : ProcessInstanceFilters) (db : Content)
    (row : WorkflowInstanceRow) : Bool :=
  (match truthy filters.definitionId with
    | some id => row.definitionId == id
    | none => true) &&
  (match truthy filters.definitionVersion with
    | some version => (digits version).any fun n => row.definitionVersion == n
    | none => true) &&
  (match truthy filters.currentStepId with
    | some step => row.currentStepIds.contains step &&
      (row.status == "ACTIVE" || row.status == "WAITING")
    | none => true) &&
  (match filters.stepStartedBefore with
    | some (.utc cutoff) => runningBefore db row.id (filters.currentStepId.getD "") cutoff
    | _ => true) &&
  (filters.status.isEmpty || filters.status.contains row.status) &&
  (match truthy filters.businessKey with
    | some key => row.businessKey == some key
    | none => true) &&
  (match filters.fromTime with
    | .utc time => decide (time ≤ row.startedAt)
    | _ => true) &&
  (match filters.toTime with
    | .utc time => decide (row.startedAt < time)
    | _ => true)

/-! ## The lists -/

structure ProcessInstanceQuery extends ProcessInstanceFilters where
  cursor : Option ProcessInstanceCursor := none
  pageSize : Option JsNumber := none

/-- `(started_at, id)`. -/
def WorkflowInstanceRow.key (row : WorkflowInstanceRow) : Key :=
  toLex (row.startedAt, row.id)

def WorkflowInstanceRow.item (row : WorkflowInstanceRow) : ProcessInstanceListItem where
  id := row.id
  definitionId := row.definitionId
  definitionVersion := row.definitionVersion
  status := row.status
  currentStepIds := row.currentStepIds
  startedAt := toDate row.startedAt
  completedAt := row.completedAt.map toDate
  failureReason := row.failureReason
  businessKey := row.businessKey

/-- `ProcessInstanceQueries.list`. -/
def list (db : Content) (query : ProcessInstanceQuery) :
    Except String (List ProcessInstanceListItem × Option ProcessInstanceCursor) := do
  let filters := query.toProcessInstanceFilters
  validateFilters filters
  let limit ← pageSize query.pageSize
  fetchPage (·.key) (·.item) (encodeCursor · filters) (cursorKey filters) db.instances
    (filters.selects db) limit query.cursor

structure StepExecutionCursor where
  v : Nat
  startedAt : TimeText
  id : String
  instanceId : String

structure StepExecutionListItem where
  id : String
  stepId : String
  stepType : String
  attemptNumber : Int
  status : String
  startedAt : Date
  endedAt : Option Date
  hasFailure : Bool
  hasInputSnapshot : Bool
  hasOutputSnapshot : Bool

def encodeStepExecutionCursor (item : StepExecutionListItem) (instanceId : String) :
    StepExecutionCursor where
  v := 1
  startedAt := toISOString item.startedAt
  id := item.id
  instanceId := instanceId

def decodeStepExecutionCursor (cursor : StepExecutionCursor) (instanceId : String) :
    Except String StepExecutionCursor :=
  if cursor.v ≠ 1 ∨ !isUtcTimestamp cursor.startedAt ∨ cursor.id.isEmpty ∨
      cursor.instanceId ≠ instanceId then
    .error "Invalid cursor"
  else .ok cursor

def stepExecutionCursorKey (instanceId : String) (value : StepExecutionCursor) :
    Except String Key := do
  let cursor ← decodeStepExecutionCursor value instanceId
  rowParameters cursor.startedAt cursor.id

structure StepExecutionQuery where
  cursor : Option StepExecutionCursor := none
  pageSize : Option JsNumber := none

/-- `(started_at, id)`. -/
def StepExecutionRow.key (row : StepExecutionRow) : Key :=
  toLex (row.startedAt, row.id)

def StepExecutionRow.item (row : StepExecutionRow) : StepExecutionListItem where
  id := row.id
  stepId := row.stepId
  stepType := row.stepType
  attemptNumber := row.attemptNumber
  status := row.status
  startedAt := toDate row.startedAt
  endedAt := row.endedAt.map toDate
  hasFailure := row.failureReason.isSome
  hasInputSnapshot := row.inputSnapshot.isSome
  hasOutputSnapshot := row.outputSnapshot.isSome

/-- `ProcessInstanceQueries.listStepExecutions`. -/
def listStepExecutions (db : Content) (instanceId : String) (query : StepExecutionQuery) :
    Except String (List StepExecutionListItem × Option StepExecutionCursor) := do
  let limit ← pageSize query.pageSize
  fetchPage (·.key) (·.item) (encodeStepExecutionCursor · instanceId)
    (stepExecutionCursorKey instanceId) db.executions (fun row => row.instanceId == instanceId)
    limit query.cursor

end Rochallor.Monitor
