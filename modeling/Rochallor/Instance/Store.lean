import Rochallor.Definition.Schema
import Rochallor.Instance.Types
import Mathlib.Data.List.Dedup
import Mathlib.Data.List.Sort
import Mathlib.Tactic.Simps.Basic

/-! # The PostgreSQL stores

    The statements of `internal/storage/postgres`, one function each, on the
    tables of `Db`.  A statement that only updates rows is a total function; a
    statement PostgreSQL can reject returns an error.  The caller draws a row's
    id by reading `Db.nextId` just before the insertion, where the source calls
    `id.NewStepExecution()` and its like.

    `now` stands for PostgreSQL's `now()` or `clock_timestamp()`.
-/

namespace Rochallor

/-- The errors the engine returns to its callers. -/
inductive EngineError where
  | instanceNotFound
  | userTaskNotFound
  | instanceTerminal
  | waitStepNotParked
  | stepTypeMismatch
  | businessKeyConflict
  | stepNotRetryable
  | instanceNotFailed
  | leaseLost
  | invalidLeaseOwner
  | invalidLeaseSeconds
  | schemaViolation (violations : List SchemaViolation)
  /-- Any other error, by its text. -/
  | message (text : String)
  /-- The dispatch recursion has not returned within the given number of
      dispatches; the transaction it runs in has not committed. -/
  | unfinished
  deriving DecidableEq, Repr

namespace Db

/-! ## workflow_instance -/

def getInstance (db : Db) (instanceID : Nat) : Option WorkflowInstance :=
  Table.find (·.id) instanceID db.instances

/-- The partial unique index `uniq_workflow_instance_bk_def_active`: some
    other in-flight instance of the definition holds the key. -/
def businessKeyTaken (db : Db) (self : Nat) (definitionID : String)
    (businessKey : Option String) : Bool :=
  businessKey.isSome &&
    db.instances.any fun r => r.id != self && r.definitionID == definitionID &&
      r.businessKey == businessKey && r.status.inFlight

/-- Records a write to `workflow_instance.status`. -/
@[simps] def logStatus (db : Db) (instanceID : Nat) (status : InstanceStatus)
    (statement : StatusStatement) : Db :=
  { db with statusWrites := db.statusWrites ++ [⟨instanceID, status, statement⟩] }

/-- `UPDATE workflow_instance SET f WHERE id = instanceID`. -/
@[simps] def updateInstance (db : Db) (instanceID : Nat)
    (f : WorkflowInstance → WorkflowInstance) : Db :=
  { db with instances := Table.update (fun r => decide (r.id = instanceID)) f db.instances }

/-- The row `InsertInstance` returns. -/
def newInstance (db : Db) (definitionID : String) (definitionVersion : Int)
    (status : InstanceStatus) (currentStepIDs : List StepId) (vars : Json)
    (businessKey : Option String) : WorkflowInstance where
  id := db.nextId
  definitionID := definitionID
  definitionVersion := definitionVersion
  status := status
  currentStepIDs := currentStepIDs
  vars := vars
  businessKey := businessKey

/-- `INSERT INTO workflow_instance`. -/
@[simps] def addInstance (db : Db) (inst : WorkflowInstance) : Db :=
  { db with
    instances := db.instances ++ [inst]
    nextId := db.nextId + 1
    statusWrites := db.statusWrites ++ [⟨inst.id, inst.status, .insertInstance⟩] }

def insertInstance (db : Db) (inst : WorkflowInstance) : Except EngineError Db :=
  if inst.status.inFlight && db.businessKeyTaken inst.id inst.definitionID inst.businessKey then
    .error .businessKeyConflict
  else .ok (db.addInstance inst)

@[simps!] def updateInstanceCurrentSteps (db : Db) (instanceID : Nat) (stepIDs : List StepId) : Db :=
  db.updateInstance instanceID fun r => { r with currentStepIDs := stepIDs }

@[simps!] def updateInstanceStatus (db : Db) (instanceID : Nat) (status : InstanceStatus) : Db :=
  (db.updateInstance instanceID fun r => { r with status := status }).logStatus
    instanceID status .updateInstanceStatus

@[simps!] def updateInstanceStatusAndSteps (db : Db) (instanceID : Nat) (status : InstanceStatus)
    (stepIDs : List StepId) : Db :=
  (db.updateInstance instanceID fun r =>
    { r with currentStepIDs := stepIDs, status := status }).logStatus
      instanceID status .updateInstanceStatusAndSteps

@[simps!] def completeInstance (db : Db) (now : Time) (instanceID : Nat) (stepIDs : List StepId) : Db :=
  (db.updateInstance instanceID fun r =>
    { r with status := .completed, completedAt := some now, currentStepIDs := stepIDs }).logStatus
      instanceID .completed .completeInstance

@[simps!] def failInstance (db : Db) (now : Time) (instanceID : Nat) (reason : String) : Db :=
  (db.updateInstance instanceID fun r =>
    { r with status := .failed, failureReason := some reason, completedAt := some now }).logStatus
      instanceID .failed .failInstance

@[simps!] def markInstanceFailed (db : Db) (now : Time) (instanceID : Nat) (reason : String) : Db :=
  (db.updateInstance instanceID fun r =>
    { r with status := .failed, failureReason := some reason, completedAt := some now }).logStatus
      instanceID .failed .markInstanceFailed

/-- Fails when another in-flight instance has taken the business key since. -/
def reactivateInstance (db : Db) (inst : WorkflowInstance) : Except EngineError Db :=
  if db.businessKeyTaken inst.id inst.definitionID inst.businessKey then
    .error .businessKeyConflict
  else
    .ok ((db.updateInstance inst.id fun r =>
      { r with status := .active, failureReason := none, completedAt := none }).logStatus
        inst.id .active .reactivateInstance)

/-- `jsonb || jsonb` on objects: a shallow merge in which the right side wins.
    A left side that is not an object counts as empty. -/
def mergeJson (existing : Json) (patch : GoMap Json) : Json :=
  match existing with
  | .obj members => .obj (GoMap.overlay members patch)
  | _ => .obj (GoMap.overlay [] patch)

def updateInstanceVariablesPartial (db : Db) (instanceID : Nat) (patch : GoMap Value) :
    Except EngineError Db :=
  if patch.isEmpty then .ok db
  else
    match marshalMembers patch with
    | .error e => .error (.message ("marshal patch: " ++ e))
    | .ok p => .ok (db.updateInstance instanceID fun r => { r with vars := mergeJson r.vars p })

/-- The single statement behind `Cancel`: only an in-flight row matches. -/
def cancelInstance (db : Db) (now : Time) (instanceID : Nat) (reason : String) :
    Except EngineError Db :=
  match db.getInstance instanceID with
  | none => .error (.message "cancel: no rows in result set")
  | some inst =>
    if inst.status.inFlight then
      .ok ((db.updateInstance instanceID fun r =>
        { r with status := .cancelled, failureReason := some reason,
                 completedAt := some now }).logStatus instanceID .cancelled .cancelInstance)
    else .error (.message "cancel: no rows in result set")

/-! ## step_execution -/

def getStepExecution (db : Db) (stepExecID : Nat) : Option StepExecution :=
  Table.find (·.id) stepExecID db.stepExecutions

/-- `UPDATE step_execution SET f WHERE p`. -/
@[simps] def updateStepExecutions (db : Db) (p : StepExecution → Bool)
    (f : StepExecution → StepExecution) : Db :=
  { db with stepExecutions := Table.update p f db.stepExecutions }

/-- `instance_id = … AND step_id = … AND status = 'RUNNING'`. -/
def runningAt (instanceID : Nat) (stepID : StepId) (r : StepExecution) : Bool :=
  decide (r.instanceID = instanceID) && decide (r.stepID = stepID) &&
    decide (r.status = .running)

def countStepAttempts (db : Db) (instanceID : Nat) (stepID : StepId) : Nat :=
  db.stepExecutions.countP fun r => decide (r.instanceID = instanceID) && decide (r.stepID = stepID)

@[simps] def insertStepExecution (db : Db) (instanceID : Nat) (stepID : StepId)
    (stepType : StepType) (attempt : Nat) (inputSnapshot : Json) : Db :=
  { db with
    stepExecutions := db.stepExecutions ++
      [{ id := db.nextId, instanceID := instanceID, stepID := stepID, stepType := stepType,
         attemptNumber := attempt, status := .running, inputSnapshot := inputSnapshot }]
    nextId := db.nextId + 1 }

@[simps!] def completeStepExecutionByID (db : Db) (now : Time) (stepExecID : Nat)
    (outputSnapshot : Option Json) : Db :=
  db.updateStepExecutions (fun r => decide (r.id = stepExecID)) fun r =>
    { r with status := .completed, endedAt := some now, outputSnapshot := outputSnapshot }

@[simps!] def completeStepExecutionByStep (db : Db) (now : Time) (instanceID : Nat) (stepID : StepId)
    (outputSnapshot : Json) : Db × Nat :=
  (db.updateStepExecutions (runningAt instanceID stepID) fun r =>
      { r with status := .completed, endedAt := some now, outputSnapshot := some outputSnapshot },
   Table.affected (runningAt instanceID stepID) db.stepExecutions)

@[simps!] def completeStepExecutionByStepNoOutput (db : Db) (now : Time) (instanceID : Nat)
    (stepID : StepId) : Db :=
  db.updateStepExecutions (runningAt instanceID stepID) fun r =>
    { r with status := .completed, endedAt := some now }

@[simps!] def failStepExecutionByID (db : Db) (now : Time) (stepExecID : Nat) (reason : String) : Db :=
  db.updateStepExecutions (fun r => decide (r.id = stepExecID)) fun r =>
    { r with status := .failed, endedAt := some now, failureReason := some reason }

@[simps!] def failStepExecutionByStep (db : Db) (now : Time) (instanceID : Nat) (stepID : StepId)
    (reason : String) : Db :=
  db.updateStepExecutions (runningAt instanceID stepID) fun r =>
    { r with status := .failed, endedAt := some now, failureReason := some reason }

/-- `COUNT(DISTINCT step_id)` over the completed rows of the given steps. -/
def countCompletedBranchLeafs (db : Db) (instanceID : Nat) (leafStepIDs : List StepId) : Nat :=
  ((db.stepExecutions.filter fun r => decide (r.instanceID = instanceID) &&
      leafStepIDs.contains r.stepID && decide (r.status = .completed)).map
    (·.stepID)).dedup.length

/-- The status of the attempt with the greatest attempt number. -/
def getLatestStepExecutionStatus (db : Db) (instanceID : Nat) (stepID : StepId) :
    Except EngineError StepExecutionStatus :=
  let attempts := db.stepExecutions.filter fun r =>
    decide (r.instanceID = instanceID) && decide (r.stepID = stepID)
  match attempts.foldl (fun (best : Option StepExecution) r =>
      match best with
      | none => some r
      | some b => if b.attemptNumber < r.attemptNumber then some r else some b) none with
  | none => .error .stepNotRetryable
  | some r => .ok r.status

/-! ## job -/

def getJob (db : Db) (jobID : Nat) : Option Job :=
  Table.find (·.id) jobID db.jobs

/-- `UPDATE job SET f WHERE p`. -/
@[simps] def updateJobs (db : Db) (p : Job → Bool) (f : Job → Job) : Db :=
  { db with jobs := Table.update p f db.jobs }

/-- `INSERT INTO job`, by both stores: the new row is `UNLOCKED`. -/
@[simps] def insertJob (db : Db) (now : Time) (instanceID stepExecID : Nat) (jobType : String)
    (retriesRemaining : Int) (payload : Json) : Db :=
  { db with
    jobs := db.jobs ++
      [{ id := db.nextId, instanceID := instanceID, stepExecutionID := stepExecID,
         jobType := jobType, status := .unlocked, retriesRemaining := retriesRemaining,
         payload := payload, createdAt := now }]
    nextId := db.nextId + 1 }

@[simps!] def markJobCompleted (db : Db) (jobID : Nat) (workerID : String) : Db :=
  db.updateJobs (fun r => decide (r.id = jobID)) fun r =>
    { r with status := .completed, workerID := some workerID }

@[simps!] def markJobFailed (db : Db) (jobID : Nat) (workerID : String) : Db :=
  db.updateJobs (fun r => decide (r.id = jobID)) fun r =>
    { r with status := .failed, workerID := some workerID }

/-- The filter also names a `PENDING` status, which no statement ever sets. -/
@[simps!] def cancelJobByStepExecution (db : Db) (stepExecID : Nat) : Db :=
  db.updateJobs (fun r => decide (r.stepExecutionID = stepExecID) && r.status.live) fun r =>
    { r with status := .cancelled }

@[simps!] def cancelLockedJob (db : Db) (jobID : Nat) : Db :=
  db.updateJobs (fun r => decide (r.id = jobID) && decide (r.status = .locked)) fun r =>
    { r with status := .cancelled }

def getExpiredLeases (db : Db) (now : Time) : List Nat :=
  (db.jobs.filter fun r => decide (r.status = .locked) &&
    r.lockExpiresAt.any fun t => decide (t < now)).map (·.id)

/-- The ids `PollJobs` claims: the oldest `max` unlocked jobs of the wanted
    types among the rows no other transaction has locked (`SKIP LOCKED`). -/
def pollCandidates (db : Db) (jobTypes : List String) (max : Nat) (rowLocked : List Nat) :
    List Nat :=
  (((db.jobs.filter fun r => decide (r.status = .unlocked) && jobTypes.contains r.jobType &&
      !rowLocked.contains r.id).insertionSort (·.createdAt ≤ ·.createdAt)).take max).map (·.id)

/-- `PollJobs`: the claimed rows and the tables after the claim.  The lease
    length is in seconds. -/
def pollJobs (db : Db) (now : Time) (workerID : String) (jobTypes : List String) (max : Nat)
    (lockDurationSeconds : Int) (rowLocked : List Nat) : List Job × Db :=
  if jobTypes.isEmpty || max = 0 then ([], db)
  else
    let claimed := db.pollCandidates jobTypes max rowLocked
    let db' := db.updateJobs (fun r => claimed.contains r.id) fun r =>
      { r with status := .locked, workerID := some workerID, lockedAt := some now,
               lockExpiresAt := some (now + lockDurationSeconds * 1000000000) }
    (db'.jobs.filter fun r => claimed.contains r.id, db')

/-! ## user_task -/

/-- `UPDATE user_task SET f WHERE p`. -/
@[simps] def updateUserTasks (db : Db) (p : UserTask → Bool) (f : UserTask → UserTask) : Db :=
  { db with userTasks := Table.update p f db.userTasks }

@[simps] def insertUserTask (db : Db) (instanceID stepExecID : Nat) (stepID : StepId)
    (payload : Json) : Db :=
  { db with
    userTasks := db.userTasks ++
      [{ id := db.nextId, instanceID := instanceID, stepExecutionID := stepExecID,
         stepID := stepID, status := .opened, payload := payload }]
    nextId := db.nextId + 1 }

/-- `instance_id = … AND step_id = … AND status = 'OPEN'`. -/
def openAt (instanceID : Nat) (stepID : StepId) (r : UserTask) : Bool :=
  decide (r.instanceID = instanceID) && decide (r.stepID = stepID) && decide (r.status = .opened)

@[simps!] def completeUserTask (db : Db) (now : Time) (instanceID : Nat) (stepID : StepId)
    (result : Json) : Db × Nat :=
  (db.updateUserTasks (openAt instanceID stepID) fun r =>
      { r with status := .completed, result := some result, completedAt := some now },
   Table.affected (openAt instanceID stepID) db.userTasks)

@[simps!] def cancelUserTaskByStepExecution (db : Db) (now : Time) (stepExecID : Nat) : Db :=
  db.updateUserTasks
    (fun r => decide (r.stepExecutionID = stepExecID) && decide (r.status = .opened)) fun r =>
      { r with status := .cancelled, completedAt := some now }

/-! ## boundary_event_schedule -/

@[simps] def insertBoundaryEventSchedule (db : Db) (instanceID stepExecID : Nat)
    (targetStepID : StepId) (fireAt : Time) (interrupting : Bool) : Db :=
  { db with
    boundaryEvents := db.boundaryEvents ++
      [{ id := db.nextId, instanceID := instanceID, stepExecutionID := stepExecID,
         targetStepID := targetStepID, fireAt := fireAt, interrupting := interrupting }]
    nextId := db.nextId + 1 }

/-- The row a claim matches: this id, this instance, unfired and due. -/
def dueEvent (now : Time) (eventID instanceID : Nat) (r : BoundaryEventSchedule) : Bool :=
  decide (r.id = eventID) && decide (r.instanceID = instanceID) && !r.fired &&
    decide (r.fireAt ≤ now)

@[simps] def markFired (db : Db) (now : Time) (eventID instanceID : Nat) : Db :=
  { db with
    boundaryEvents := Table.update (dueEvent now eventID instanceID)
      (fun r => { r with fired := true }) db.boundaryEvents }

/-- Marks the matching row fired and returns it, or `none`. -/
def claimDueBoundaryEvent (db : Db) (now : Time) (eventID instanceID : Nat) :
    Option BoundaryEventSchedule × Db :=
  (db.boundaryEvents.find? (dueEvent now eventID instanceID),
   db.markFired now eventID instanceID)

/-- A row the housekeeper removes: fired longer ago than the retention, or
    unfired on a step execution that has left `RUNNING`. -/
def obsolete (db : Db) (now : Time) (retention : Int) (r : BoundaryEventSchedule) : Bool :=
  (r.fired && decide (r.fireAt < now - retention)) ||
  (!r.fired && db.stepExecutions.any fun se =>
    decide (se.id = r.stepExecutionID) && decide (se.status ≠ .running))

@[simps] def deleteObsoleteBoundaryEvents (db : Db) (now : Time) (retention : Int) : Db :=
  { db with boundaryEvents := db.boundaryEvents.filter fun r => !db.obsolete now retention r }

/-! ## dispatch_outbox -/

@[simps] def insertOutbox (db : Db) (job : DispatchJob) : Db :=
  { db with
    outbox := db.outbox ++
      [{ id := db.nextId, jobID := job.id, instanceID := job.instanceID,
         jobType := job.jobType, event := job }]
    nextId := db.nextId + 1 }

/-! ## workflow_chain -/

/-- `INSERT … ON CONFLICT (source_instance_id) DO NOTHING`. -/
@[simps] def insertWorkflowChain (db : Db) (request : WorkflowChain) : Db :=
  { db with
    chains :=
      if db.chains.any fun r => decide (r.sourceInstanceID = request.sourceInstanceID) then
        db.chains
      else db.chains ++ [request] }

def listPendingWorkflowChains (db : Db) : List WorkflowChain :=
  (db.chains.filter fun r => r.childInstanceID.isNone).insertionSort fun a b =>
    a.createdAt < b.createdAt ∨ (a.createdAt = b.createdAt ∧ a.sourceInstanceID ≤ b.sourceInstanceID)

def claimWorkflowChain (db : Db) (sourceInstanceID : Nat) : Bool :=
  db.chains.any fun r => decide (r.sourceInstanceID = sourceInstanceID) && r.childInstanceID.isNone

@[simps] def completeWorkflowChain (db : Db) (sourceInstanceID childInstanceID : Nat) : Db :=
  { db with
    chains := Table.update (fun r => decide (r.sourceInstanceID = sourceInstanceID))
      (fun r => { r with childInstanceID := some childInstanceID }) db.chains }

end Db

end Rochallor
