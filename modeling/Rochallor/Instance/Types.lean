import Rochallor.Definition.Types
import Rochallor.Framework.Table

/-! # Runtime entities

    The rows the engine keeps in PostgreSQL (`internal/instance/types.go` and
    `migrations/`), and the database as one list of rows a table.

    Ids are ULIDs in the source, drawn fresh for every row; here they are
    numbers drawn from one counter, `Db.nextId`.  Times are instants in
    nanoseconds.
-/

namespace Rochallor

abbrev Time := Int

/-! ## Statuses -/

/-- The lifecycle state of a workflow instance. -/
inductive InstanceStatus where
  | active
  | waiting
  | completed
  | failed
  | cancelled
  deriving DecidableEq, Inhabited, Repr

namespace InstanceStatus

/-- `ACTIVE` or `WAITING`: callbacks can still move the instance. -/
def inFlight : InstanceStatus → Bool
  | .active | .waiting => true
  | _ => false

/-- `COMPLETED`, `FAILED` or `CANCELLED`. -/
def terminal (s : InstanceStatus) : Bool := !s.inFlight

end InstanceStatus

/-- The lifecycle state of a step execution. -/
inductive StepExecutionStatus where
  | running
  | completed
  | failed
  | skipped
  deriving DecidableEq, Inhabited, Repr

/-- The lifecycle state of a job. -/
inductive JobStatus where
  | unlocked
  | locked
  | completed
  | failed
  | cancelled
  deriving DecidableEq, Inhabited, Repr

namespace JobStatus

/-- `UNLOCKED` or `LOCKED`: a callback for the job may still be accepted. -/
def live : JobStatus → Bool
  | .unlocked | .locked => true
  | _ => false

end JobStatus

/-- The lifecycle state of a user task. -/
inductive UserTaskStatus where
  | opened
  | completed
  | cancelled
  deriving DecidableEq, Inhabited, Repr

/-! ## Rows -/

/-- A row of `workflow_instance`. -/
structure WorkflowInstance where
  id : Nat
  definitionID : String
  definitionVersion : Int
  status : InstanceStatus
  currentStepIDs : List StepId
  vars : Json
  completedAt : Option Time := none
  failureReason : Option String := none
  businessKey : Option String := none
  deriving Inhabited

/-- A row of `step_execution`: one entry into a step. -/
structure StepExecution where
  id : Nat
  instanceID : Nat
  stepID : StepId
  stepType : StepType
  attemptNumber : Nat
  status : StepExecutionStatus
  endedAt : Option Time := none
  inputSnapshot : Json
  outputSnapshot : Option Json := none
  failureReason : Option String := none
  deriving Inhabited

/-- A row of `job`: one delivery attempt of a service task. -/
structure Job where
  id : Nat
  instanceID : Nat
  stepExecutionID : Nat
  jobType : String
  status : JobStatus
  workerID : Option String := none
  lockedAt : Option Time := none
  lockExpiresAt : Option Time := none
  retriesRemaining : Int
  payload : Json
  createdAt : Time
  deriving Inhabited

/-- A row of `user_task`. -/
structure UserTask where
  id : Nat
  instanceID : Nat
  stepExecutionID : Nat
  stepID : StepId
  status : UserTaskStatus
  payload : Json
  result : Option Json := none
  completedAt : Option Time := none
  deriving Inhabited

/-- A row of `boundary_event_schedule`: a pending or fired timer. -/
structure BoundaryEventSchedule where
  id : Nat
  instanceID : Nat
  stepExecutionID : Nat
  targetStepID : StepId
  fireAt : Time
  interrupting : Bool
  fired : Bool := false
  deriving DecidableEq, Inhabited, Repr

/-- The job fields a dispatcher sees at enqueue time. -/
structure DispatchJob where
  id : Nat
  instanceID : Nat
  stepExecutionID : Nat
  jobType : String
  retriesRemaining : Int
  payload : Json
  createdAt : Time
  deriving Inhabited

/-- A row of `dispatch_outbox`.  `event` is the serialised `JobDispatchEvent`,
    whose dedup id is the row's own id. -/
structure OutboxRow where
  id : Nat
  jobID : Nat
  instanceID : Nat
  jobType : String
  event : DispatchJob
  deriving Inhabited

/-- A row of `workflow_chain`: a request to start a child from a completed
    parent. -/
structure WorkflowChain where
  sourceInstanceID : Nat
  targetDefinitionID : String
  vars : Json
  businessKey : Option String
  childInstanceID : Option Nat := none
  createdAt : Time
  deriving Inhabited

/-! ## The database -/

/-- The statement a write to `workflow_instance.status` came from. -/
inductive StatusStatement where
  | insertInstance
  | updateInstanceStatus
  | updateInstanceStatusAndSteps
  | completeInstance
  | failInstance
  | markInstanceFailed
  | reactivateInstance
  | cancelInstance
  deriving DecidableEq, Repr

/-- One write to `workflow_instance.status`. -/
structure StatusWrite where
  instanceID : Nat
  status : InstanceStatus
  statement : StatusStatement
  deriving DecidableEq, Repr

/-- The tables.  `statusWrites` is a history variable: every write to
    `workflow_instance.status`, oldest first.  No function of the engine reads
    it. -/
structure Db where
  instances : List WorkflowInstance := []
  stepExecutions : List StepExecution := []
  jobs : List Job := []
  userTasks : List UserTask := []
  boundaryEvents : List BoundaryEventSchedule := []
  outbox : List OutboxRow := []
  chains : List WorkflowChain := []
  nextId : Nat := 0
  statusWrites : List StatusWrite := []
  deriving Inhabited

end Rochallor
