import Rochallor.Instance.Handlers

/-! # Instance operations

    The entry points of `internal/instance` that change state: `Start`,
    `CompleteJobAndAdvance`, `CompleteUserTaskAndAdvance`,
    `SignalWaitAndAdvance`, `FireBoundaryEvent`, `RetryFailedStep`, `Cancel`
    and the start of a chained workflow.

    Each is one transaction.  An operation first reads and writes its own rows
    and then, on most paths, dispatches a step.  It returns a `Plan`: either
    the tables to commit, or the steps still to be dispatched.

    The reads before the transaction (a job's step execution, an instance's
    definition) are of columns that never change, so they are made on the
    tables the transaction sees.
-/

namespace Rochallor

/-- What an operation does once its own reads and writes are made. -/
inductive Plan where
  /-- Commit, and answer the caller with an error if there is one. -/
  | commit (db : Db) (reply : Option EngineError)
  /-- Dispatch the steps, then commit. -/
  | dispatch (d : WorkflowDefinition) (tx : Tx) (steps : List StepId)
  /-- Dispatch the steps, then acknowledge the chain request of `source`. -/
  | chain (d : WorkflowDefinition) (tx : Tx) (steps : List StepId) (source : Nat)

/-- Lifts a text error. -/
def orMessage {α : Type} (label : String) : Except String α → Except EngineError α
  | .ok a => .ok a
  | .error e => .error (.message (label ++ e))

/-- A lookup that must succeed. -/
def orError {α : Type} (e : EngineError) : Option α → Except EngineError α
  | some a => .ok a
  | none => .error e

variable (svc : Service) (now : Time)

/-! ## Job callbacks -/

/-- What a callback reads while it holds the instance and job locks. -/
structure JobExecution where
  instanceStatus : InstanceStatus
  stepStatus : StepExecutionStatus
  jobStatus : JobStatus
  workerID : String
  leaseValid : Bool
  deriving DecidableEq, Repr

namespace JobExecution

def active (e : JobExecution) : Bool :=
  e.instanceStatus.inFlight && decide (e.stepStatus = .running)

/-- Kafka delivers unlocked jobs without a lease; polling callbacks must
    belong to the current, unexpired one. -/
def acceptsCallback (e : JobExecution) (workerID : String) : Bool :=
  e.active &&
    (decide (e.jobStatus = .unlocked) ||
      (decide (e.jobStatus = .locked) && e.workerID == workerID && e.leaseValid))

end JobExecution

/-- `lockJobExecution`: the instance row first, then the job with its step. -/
def lockJobExecution (db : Db) (jobID : Nat) : Except EngineError JobExecution := do
  let job ← orError (.message "lock job instance: no rows in result set") (db.getJob jobID)
  let inst ← orError (.message "lock job instance: no rows in result set")
    (db.getInstance job.instanceID)
  let se ← orError (.message "lock job execution: no rows in result set")
    (db.getStepExecution job.stepExecutionID)
  return { instanceStatus := inst.status, stepStatus := se.status, jobStatus := job.status,
           workerID := job.workerID.getD "",
           leaseValid := job.lockExpiresAt.any fun t => decide (now < t) }

/-! ## Advancing -/

/-- `advancePastStep`: the shared tail of the three completions. -/
def advancePastStep (d : WorkflowDefinition) (tx : Tx) (completedStep : WorkflowStep) :
    Tx × List StepId :=
  let newIDs := withoutStep tx.inst.currentStepIDs completedStep.id
  let newStatus := recomputeInstanceStatus d newIDs
  let tx : Tx :=
    { db := tx.db.updateInstanceStatusAndSteps tx.inst.id newStatus newIDs,
      inst := { tx.inst with currentStepIDs := newIDs, status := newStatus } }
  match completedStep.conditionalNextSteps with
  | some c =>
    if c.exprs.isEmpty then
      (tx, if completedStep.nextStep.isEmpty then [] else [completedStep.nextStep])
    else
      match variablesToMap tx.inst.vars with
      | .error e =>
        (failInstance now tx completedStep.id ("corrupt instance variables: " ++ e), [])
      | .ok vars =>
        match chooseBranch svc vars c c.exprs with
        | .error reason => (failInstance now tx completedStep.id reason, [])
        | .ok none => (failInstance now tx completedStep.id noBranchMatched, [])
        | .ok (some target) => (tx, [target])
  | none => (tx, if completedStep.nextStep.isEmpty then [] else [completedStep.nextStep])

/-- Merges a caller's variables into the in-memory instance and its row. -/
def mergeIntoInstance (db : Db) (inst : WorkflowInstance) (delta : GoMap Value)
    (label : String) : Except EngineError Tx := do
  let merged ← orMessage label (mergeVariables inst.vars delta)
  let db ← db.updateInstanceVariablesPartial inst.id delta
  return { db := db, inst := { inst with vars := merged } }

/-- The outputs-schema violations of a worker's variables. -/
def outputViolations (step : WorkflowStep) (vars : GoMap Value) : List SchemaViolation :=
  match step.outputsSchema with
  | some sch => if step.type = .serviceTask then sch.validate vars else []
  | none => []

/-- The rows of a schema violation: the job is cancelled, step and instance
    fail, and the retry budget is not consulted. -/
@[simps!] def rejectOutputs (db : Db) (stepExecID instanceID : Nat) (reason : String) : Db :=
  ((db.cancelJobByStepExecution stepExecID).failStepExecutionByID now stepExecID reason).failInstance
    now instanceID reason

/-- Job and step closed by an accepted completion.  An output that cannot be
    marshalled is stored as NULL. -/
@[simps!] def closeJob (db : Db) (jobID stepExecID : Nat) (workerID : String) (vars : GoMap Value) : Db :=
  (db.markJobCompleted jobID workerID).completeStepExecutionByID now stepExecID
    (Value.obj vars).marshal.toOption

/-- `CompleteJobAndAdvance`. -/
def completeJobAndAdvance (db : Db) (jobID : Nat) (workerID : String)
    (variablesToSet : GoMap Value) : Except EngineError Plan := do
  let job ← orError (.message "job not found") (db.getJob jobID)
  let se ← orError (.message "load step_execution: no rows in result set")
    (db.getStepExecution job.stepExecutionID)
  let peeked ← orError .instanceNotFound (db.getInstance job.instanceID)
  let d ← svc.defRepo.getVersion peeked.definitionID peeked.definitionVersion
  let completedStep ← orError (.message ("step " ++ quote se.stepID ++ " not found in definition"))
    (findStep d se.stepID)
  let state ← lockJobExecution now db jobID
  if !state.acceptsCallback workerID then return .commit db none
  let violations := outputViolations completedStep variablesToSet
  if !violations.isEmpty then
    return .commit (rejectOutputs now db se.id job.instanceID (schemaViolationError violations))
      (some (.schemaViolation violations))
  let db := closeJob now db jobID se.id workerID variablesToSet
  let inst ← orError .instanceNotFound (db.getInstance job.instanceID)
  if inst.status.terminal then return .commit db none
  let tx ← (if variablesToSet.isEmpty then pure { db := db, inst := inst }
    else mergeIntoInstance db inst variablesToSet "merge vars: ")
  -- a service task with no successor ends the local branch without cleanup
  if completedStep.nextStep.isEmpty && ConditionalBranches.len completedStep.conditionalNextSteps == 0
  then return .commit tx.db none
  let (tx, next) := advancePastStep svc now d tx completedStep
  return .dispatch d tx next

/-! ## User tasks and signals -/

/-- `CompleteUserTaskAndAdvance`. -/
def completeUserTaskAndAdvance (db : Db) (instanceID : Nat) (userTaskStepID : StepId)
    (vars : GoMap Value) : Except EngineError Plan := do
  let peeked ← orError .instanceNotFound (db.getInstance instanceID)
  let d ← svc.defRepo.getVersion peeked.definitionID peeked.definitionVersion
  let step ← orError .userTaskNotFound (findStep d userTaskStepID)
  if step.type ≠ .userTask then throw .stepTypeMismatch
  let inst ← orError .instanceNotFound (db.getInstance instanceID)
  if inst.status.terminal then throw .instanceTerminal
  let merged ← orMessage "complete user task: merge variables: " (mergeVariables inst.vars vars)
  let resultJSON ← orMessage "complete user task: marshal result: " (Value.obj vars).marshal
  let (db, rows) := db.completeUserTask now instanceID userTaskStepID resultJSON
  if rows = 0 then throw .userTaskNotFound
  let (db, _) := db.completeStepExecutionByStep now instanceID userTaskStepID merged
  let db ← db.updateInstanceVariablesPartial instanceID vars
  let (tx, next) := advancePastStep svc now d { db := db, inst := { inst with vars := merged } } step
  return .dispatch d tx next

/-- `SignalWaitAndAdvance`. -/
def signalWaitAndAdvance (db : Db) (instanceID : Nat) (waitStepID : StepId)
    (vars : GoMap Value) : Except EngineError Plan := do
  let peeked ← orError .instanceNotFound (db.getInstance instanceID)
  let d ← svc.defRepo.getVersion peeked.definitionID peeked.definitionVersion
  let step ← orError .waitStepNotParked (findStep d waitStepID)
  if step.type ≠ .wait then throw .stepTypeMismatch
  let inst ← orError .instanceNotFound (db.getInstance instanceID)
  if inst.status.terminal then throw .instanceTerminal
  if !inst.currentStepIDs.contains waitStepID then throw .waitStepNotParked
  let merged ← orMessage "signal wait: merge variables: " (mergeVariables inst.vars vars)
  let (db, rows) := db.completeStepExecutionByStep now instanceID waitStepID merged
  if rows = 0 then throw .waitStepNotParked
  let db ← db.updateInstanceVariablesPartial instanceID vars
  let (tx, next) := advancePastStep svc now d { db := db, inst := { inst with vars := merged } } step
  return .dispatch d tx next

/-! ## Timers -/

/-- The rows an interrupting timer closes. -/
@[simps!] def interruptStep (db : Db) (stepExecID : Nat) : Db :=
  ((db.failStepExecutionByID now stepExecID "interrupted by boundary timer").cancelJobByStepExecution
    stepExecID).cancelUserTaskByStepExecution now stepExecID

/-- `FireBoundaryEvent`: the timer is claimed before the instance and the step
    are looked at. -/
def fireBoundaryEvent (db : Db) (eventID instanceID : Nat) : Except EngineError Plan := do
  let peeked ← orError .instanceNotFound (db.getInstance instanceID)
  let d ← svc.defRepo.getVersion peeked.definitionID peeked.definitionVersion
  let inst ← orError .instanceNotFound (db.getInstance instanceID)
  match db.claimDueBoundaryEvent now eventID instanceID with
  | (none, db) => return .commit db none
  | (some event, db) =>
    if !inst.status.inFlight then return .commit db none
    let se ← orError (.message "get step_execution status: no rows in result set")
      (db.getStepExecution event.stepExecutionID)
    if se.status ≠ .running then return .commit db none
    if event.interrupting then
      let tx : Tx := { db := interruptStep now db event.stepExecutionID, inst := inst }
      return .dispatch d (tx.removeFromCurrentSteps se.stepID) [event.targetStepID]
    else return .dispatch d { db := db, inst := inst } [event.targetStepID]

/-! ## Manual retry -/

/-- `RetryFailedStep`: re-runs a failed step of a failed instance. -/
def retryFailedStep (db : Db) (instanceID : Nat) (stepID : StepId)
    (variablesPatch : GoMap Value) : Except EngineError Plan := do
  if stepID.isEmpty then throw (.message "retry step: instance_id and step_id are required")
  let peeked ← orError .instanceNotFound (db.getInstance instanceID)
  let d ← svc.defRepo.getVersion peeked.definitionID peeked.definitionVersion
  let _ ← orError (.message ("retry step: step " ++ quote stepID ++ " not found in definition"))
    (findStep d stepID)
  let inst ← orError .instanceNotFound (db.getInstance instanceID)
  if inst.status ≠ .failed then throw .instanceNotFailed
  let latest ← db.getLatestStepExecutionStatus instanceID stepID
  if latest ≠ .failed then throw .stepNotRetryable
  let db ← db.reactivateInstance inst
  let inst := { inst with status := .active, failureReason := none, completedAt := none }
  let tx ← (if variablesPatch.isEmpty then pure { db := db, inst := inst }
    else mergeIntoInstance db inst variablesPatch "retry step: merge variables: ")
  return .dispatch d tx [stepID]

/-! ## Starting -/

/-- The input-schema violations of the start variables. -/
def inputViolations (d : WorkflowDefinition) (vars : GoMap Value) : List SchemaViolation :=
  match d.inputSchema with
  | none => []
  | some sch => sch.validate vars

/-- `prepareStart`: resolves the definition and checks the input schema. -/
def prepareStart (definitionID : String) (definitionVersion : Int) (vars : GoMap Value) :
    Except EngineError (WorkflowDefinition × Json) := do
  let d ← (if definitionVersion ≤ 0 then svc.defRepo.getLatest now definitionID
    else svc.defRepo.getVersion definitionID definitionVersion)
  if d.steps.isEmpty then throw (.message "start: definition has no steps")
  let violations := inputViolations d vars
  if !violations.isEmpty then throw (.schemaViolation violations)
  let varJSON ← orMessage "start: marshal variables: " (Value.obj vars).marshal
  return (d, varJSON)

/-- `startInTx`: inserts the instance and goes on to its first step. -/
def startInTx (db : Db) (d : WorkflowDefinition) (vars : Json) (businessKey : String) :
    Except EngineError (Tx × List StepId) := do
  let first := (d.steps.map (·.id)).headD ""
  let bk := if businessKey.isEmpty then none else some businessKey
  let inst := db.newInstance d.id d.version .active [first] vars bk
  let db ← db.insertInstance inst
  return ({ db := db, inst := inst }, [first])

/-- `Start`. -/
def start (db : Db) (definitionID : String) (definitionVersion : Int) (vars : GoMap Value)
    (businessKey : String) : Except EngineError Plan := do
  let (d, varJSON) ← prepareStart svc now definitionID definitionVersion vars
  let (tx, next) ← startInTx db d varJSON businessKey
  return .dispatch d tx next

/-- `startChainedWorkflow`, for the request listed under `source`.  A listed
    request keeps all fields but the child it may have got since. -/
def startChainedWorkflow (db : Db) (source : Nat) : Except EngineError Plan := do
  let request ← orError (.message "workflow chain: no such request")
    (db.chains.find? fun r => decide (r.sourceInstanceID = source))
  let vars ← orMessage "" (variablesToMap request.vars)
  let (d, varJSON) ← prepareStart svc now request.targetDefinitionID 0 vars
  if !db.claimWorkflowChain source then return .commit db none
  let (tx, next) ← startInTx db d varJSON (request.businessKey.getD "")
  return .chain d tx next source

end Rochallor
