import Rochallor.Instance.Expressions
import Rochallor.Framework.Agenda

/-! # Step dispatch

    `dispatchStep`, `routeStep` and the handlers of `handlers.go`.

    In the source a handler ends by calling `dispatchStep` on the step it goes
    on to, or by looping over the branches of a gateway; nothing follows these
    calls but a return.  A handler here returns the steps it goes on to, in
    order, and `dispatchAll` makes the calls: depth first, sharing the
    transaction and the in-memory instance, and stopping at the first error.
    The recursion of the source need not end, so `dispatchAll` is given a
    number of dispatches it may make.
-/

namespace Rochallor

variable (svc : Service) (now : Time)

/-! ## Shared tails -/

/-- `failInstance`: closes the running rows of the step and the instance, in
    the tables and in memory. -/
@[simps!] def failInstance (tx : Tx) (stepID : StepId) (reason : String) : Tx where
  db := (tx.db.failStepExecutionByStep now tx.inst.id stepID reason).failInstance now
    tx.inst.id reason
  inst := { tx.inst with status := .failed }

/-- The dispatcher's `Enqueue`, in the caller's transaction. -/
def enqueue (dispatcher : Dispatcher) (db : Db) (job : DispatchJob) : Db :=
  match dispatcher with
  | .polling => db
  | .kafkaOutbox => db.insertOutbox job

/-- `scheduleBoundaryEvents`: one schedule row for each timer of the step. -/
def scheduleBoundaryEvents (instanceID seID : Nat) :
    List BoundaryEvent → Db → Except EngineError Db
  | [], db => .ok db
  | be :: rest, db =>
    if be.type = .timer then
      match parseDuration be.duration with
      | .error e => .error (.message ("boundary event duration " ++ quote be.duration ++ ": " ++ e))
      | .ok dur =>
        scheduleBoundaryEvents instanceID seID rest
          (db.insertBoundaryEventSchedule instanceID seID be.targetStepId (now + dur)
            be.interrupting)
    else scheduleBoundaryEvents instanceID seID rest db

/-! ## Handlers -/

/-- The job type of a service task defaults to the step id. -/
def jobTypeOf (step : WorkflowStep) : String :=
  if step.jobType.isEmpty then step.id else step.jobType

def handleServiceTask (tx : Tx) (step : WorkflowStep) (seID : Nat) :
    Except EngineError (Tx × List StepId) := do
  let job : DispatchJob :=
    { id := tx.db.nextId, instanceID := tx.inst.id, stepExecutionID := seID,
      jobType := jobTypeOf step, retriesRemaining := step.retryCount, payload := tx.inst.vars,
      createdAt := now }
  let db := tx.db.insertJob now tx.inst.id seID (jobTypeOf step) step.retryCount tx.inst.vars
  let db := enqueue svc.dispatcher db job
  let db ← scheduleBoundaryEvents now tx.inst.id seID step.boundaryEvents db
  return ({ tx with db := db }, [])

/-- Marks the instance `WAITING`, in the tables and in memory. -/
def markWaiting (tx : Tx) : Tx where
  db := tx.db.updateInstanceStatus tx.inst.id .waiting
  inst := { tx.inst with status := .waiting }

def handleUserTask (tx : Tx) (step : WorkflowStep) (seID : Nat) :
    Except EngineError (Tx × List StepId) := do
  let tx := markWaiting { tx with
    db := tx.db.insertUserTask tx.inst.id seID step.id tx.inst.vars }
  let db ← scheduleBoundaryEvents now tx.inst.id seID step.boundaryEvents tx.db
  return ({ tx with db := db }, [])

def handleWait (tx : Tx) (step : WorkflowStep) (seID : Nat) :
    Except EngineError (Tx × List StepId) := do
  let tx := markWaiting tx
  let db ← scheduleBoundaryEvents now tx.inst.id seID step.boundaryEvents tx.db
  return ({ tx with db := db }, [])

/-- Closes the running rows of the step and drops it from the current steps. -/
@[simps!] def closeByStep (tx : Tx) (step : WorkflowStep) : Tx :=
  Tx.removeFromCurrentSteps
    { tx with db := tx.db.completeStepExecutionByStepNoOutput now tx.inst.id step.id } step.id

def handleDecision (tx : Tx) (step : WorkflowStep) : Except EngineError (Tx × List StepId) :=
  match variablesToMap tx.inst.vars with
  | .error e => .ok (failInstance now tx step.id ("corrupt instance variables: " ++ e), [])
  | .ok vars =>
    let choice : Except String (Option StepId) := match step.conditionalNextSteps with
      | none => .ok none
      | some c => chooseBranch svc vars c c.exprs
    match choice with
    | .error reason => .ok (failInstance now tx step.id reason, [])
    | .ok none => .ok (failInstance now tx step.id noBranchMatched, [])
    | .ok (some target) => .ok (closeByStep now tx step, [target])

def handleTransformation (tx : Tx) (step : WorkflowStep) (seID : Nat) :
    Except EngineError (Tx × List StepId) :=
  match variablesToMap tx.inst.vars with
  | .error e => .error (.message ("corrupt instance variables: " ++ e))
  | .ok vars =>
    match runTransformations svc now step.transformations vars [] with
    | .error (.abort e) => .error (.message e)
    | .error (.fail reason) => .ok (failInstance now tx step.id reason, [])
    | .ok (vars, delta) =>
      match (Value.obj vars).marshal with
      | .error e => .error (.message ("transformation: marshal merged vars: " ++ e))
      | .ok merged => do
        let db ← tx.db.updateInstanceVariablesPartial tx.inst.id delta
        let db := db.completeStepExecutionByID now seID (some merged)
        let tx : Tx := { db := db, inst := { tx.inst with vars := merged } }
        return (tx.removeFromCurrentSteps step.id, [step.nextStep])

def handleParallelGateway (tx : Tx) (step : WorkflowStep) :
    Except EngineError (Tx × List StepId) :=
  .ok (closeByStep now tx step, step.parallelNextSteps)

def handleJoinGateway (d : WorkflowDefinition) (tx : Tx) (step : WorkflowStep) (seID : Nat) :
    Except EngineError (Tx × List StepId) :=
  match findParallelGatewayFor d step.id with
  | none =>
    .error (.message ("join step " ++ quote step.id ++ ": no matching PARALLEL_GATEWAY found"))
  | some pgStep =>
    let expectedBranches := pgStep.parallelNextSteps.length
    let arrivedBranches := tx.db.countCompletedBranchLeafs tx.inst.id (branchLeafsFor pgStep)
    let tx := { tx with db := tx.db.completeStepExecutionByID now seID none }
    if arrivedBranches < expectedBranches then .ok (tx, [])
    else .ok (tx.removeFromCurrentSteps step.id, [step.nextStep])

def handleEnd (d : WorkflowDefinition) (tx : Tx) (step : WorkflowStep) (seID : Nat) :
    Except EngineError (Tx × List StepId) :=
  let newIDs := withoutStep tx.inst.currentStepIDs step.id
  let db := (tx.db.completeStepExecutionByID now seID none).completeInstance now tx.inst.id newIDs
  let inst := { tx.inst with currentStepIDs := newIDs, status := .completed }
  if d.autoStartNextWorkflow && !d.nextWorkflowId.isEmpty then
    .ok ({ db := db.insertWorkflowChain
             { sourceInstanceID := inst.id, targetDefinitionID := d.nextWorkflowId,
               vars := inst.vars, businessKey := inst.businessKey, createdAt := now },
           inst := inst }, [])
  else .ok ({ db := db, inst := inst }, [])

def handleDecisionTable (tx : Tx) (step : WorkflowStep) : Except EngineError (Tx × List StepId) :=
  match variablesToMap tx.inst.vars with
  | .error e => .ok (failInstance now tx step.id ("corrupt instance variables: " ++ e), [])
  | .ok vars =>
    match evaluateDecisionTable svc now vars step with
    | .error reason => .ok (failInstance now tx step.id reason, [])
    | .ok outputs =>
      if outputs.isEmpty then .ok (closeByStep now tx step, [step.nextStep])
      else
        match (Value.obj (vars.overlay outputs)).marshal with
        | .error e => .error (.message ("decision_table: marshal merged vars: " ++ e))
        | .ok merged => do
          let db ← tx.db.updateInstanceVariablesPartial tx.inst.id outputs
          let tx : Tx := { db := db, inst := { tx.inst with vars := merged } }
          return (closeByStep now tx step, [step.nextStep])

/-! ## Dispatch -/

/-- `routeStep`. -/
def routeStep (d : WorkflowDefinition) (tx : Tx) (step : WorkflowStep) (seID : Nat) :
    Except EngineError (Tx × List StepId) :=
  match step.type with
  | .serviceTask => handleServiceTask svc now tx step seID
  | .userTask => handleUserTask now tx step seID
  | .decision => handleDecision svc now tx step
  | .transformation => handleTransformation svc now tx step seID
  | .wait => handleWait now tx step seID
  | .parallelGateway => handleParallelGateway now tx step
  | .joinGateway => handleJoinGateway now d tx step seID
  | .endStep => handleEnd now d tx step seID
  | .decisionTable => handleDecisionTable svc now tx step
  | .unsupported t => .error (.message ("unsupported step type " ++ quote t))

/-- The step-execution row and the new current steps of an entry into `step`. -/
@[simps!] def enterStep (tx : Tx) (step : WorkflowStep) (stepID : StepId) : Tx :=
  let attempt := tx.db.countStepAttempts tx.inst.id stepID + 1
  let db := tx.db.insertStepExecution tx.inst.id stepID step.type attempt tx.inst.vars
  let newIDs := withStep tx.inst.currentStepIDs stepID
  { db := db.updateInstanceCurrentSteps tx.inst.id newIDs,
    inst := { tx.inst with currentStepIDs := newIDs } }

/-- `dispatchStep`: creates the step-execution row, lists the step as current
    and routes to the handler of its type. -/
def dispatchStep (d : WorkflowDefinition) (tx : Tx) (stepID : StepId) :
    Except EngineError (Tx × List StepId) :=
  match findStep d stepID with
  | none => .error (.message ("step " ++ quote stepID ++ " not found in definition"))
  | some step => routeStep svc now d (enterStep tx step stepID) step tx.db.nextId

/-- Makes the pending `dispatchStep` calls, depth first. -/
def dispatchAll (d : WorkflowDefinition) (fuel : Nat) (tx : Tx) (pending : List StepId) :
    Except EngineError Tx :=
  Agenda.run (dispatchStep svc now d) .unfinished fuel tx pending

end Rochallor
