import Rochallor.Instance.Store
import Rochallor.Framework.Table
import Mathlib.Data.List.Sort
import Mathlib.Data.Prod.Lex

/-! # What a process instance waits for

    `execution-context.ts`: for each current step of an instance in flight, the
    monitor looks up its latest execution and the job, the user task and the
    timers that belong to it, all in one read-only transaction on the engine's
    tables.
-/

namespace Rochallor.Monitor

/-- The columns the engine writes and its own queries never look at. -/
structure OtherColumns where
  /-- `step_execution.started_at`. -/
  startedAt : Nat → Time
  /-- `user_task.created_at`. -/
  createdAt : Nat → Time
  assignee : Nat → Option String
  assigneeGroup : Nat → Option String

structure ContextJob where
  id : Nat
  type : String
  status : JobStatus
  workerId : Option String
  lockedAt : Option Time
  lockExpiresAt : Option Time
  createdAt : Time
  retriesRemaining : Int

structure ContextTask where
  id : Nat
  assignee : Option String
  assigneeGroup : Option String

structure ContextTimer where
  id : Nat
  fireAt : Time
  targetStepId : StepId
  interrupting : Bool

inductive WaitReason where
  | signal
  | userTask
  | jobAvailable
  | jobLocked
  | unavailable
  deriving DecidableEq, Repr

structure ExecutionContext where
  stepId : StepId
  executionId : Option Nat
  stepType : Option StepType
  status : Option StepExecutionStatus
  startedAt : Option Time
  reason : WaitReason
  unavailableReason : Option String
  job : Option ContextJob
  task : Option ContextTask
  timers : List ContextTimer
  timersTruncated : Bool

def contextJob (r : Job) : ContextJob where
  id := r.id
  type := r.jobType
  status := r.status
  workerId := r.workerID
  lockedAt := r.lockedAt
  lockExpiresAt := r.lockExpiresAt
  createdAt := r.createdAt
  retriesRemaining := r.retriesRemaining

def contextTask (cols : OtherColumns) (u : UserTask) : ContextTask where
  id := u.id
  assignee := cols.assignee u.id
  assigneeGroup := cols.assigneeGroup u.id

def contextTimer (r : BoundaryEventSchedule) : ContextTimer where
  id := r.id
  fireAt := r.fireAt
  targetStepId := r.targetStepID
  interrupting := r.interrupting

/-- The executions of a step. -/
def executionsOf (db : Db) (instanceId : Nat) (stepId : StepId) : List StepExecution :=
  db.stepExecutions.filter fun r => decide (r.instanceID = instanceId) && decide (r.stepID = stepId)

/-- `ORDER BY attempt_number DESC, started_at DESC, id DESC LIMIT 1`. -/
def latestExecution (cols : OtherColumns) (rows : List StepExecution) : Option StepExecution :=
  Table.latest (fun r => toLex (r.attemptNumber, toLex (cols.startedAt r.id, r.id))) rows

/-- The live jobs of a running service task. -/
def contextJobs (db : Db) (instanceId : Nat) (e : StepExecution) : List Job :=
  if e.status = .running ∧ e.stepType = .serviceTask then
    db.jobs.filter fun r => decide (r.instanceID = instanceId) && r.status.live &&
      decide (r.stepExecutionID = e.id)
  else []

/-- The open tasks of a running user task. -/
def contextTasks (db : Db) (instanceId : Nat) (e : StepExecution) : List UserTask :=
  if e.status = .running ∧ e.stepType = .userTask then
    db.userTasks.filter fun u => decide (u.stepExecutionID = e.id) &&
      decide (u.instanceID = instanceId) && decide (u.status = .opened)
  else []

/-- The pending timers of a running execution, in the order in which they fire.
    One more is read than will be shown. -/
def contextTimers (db : Db) (instanceId : Nat) (e : StepExecution) : List BoundaryEventSchedule :=
  if e.status = .running then
    ((db.boundaryEvents.filter fun r => decide (r.instanceID = instanceId) && !r.fired &&
      decide (r.stepExecutionID = e.id)).insertionSort
        fun a b => a.fireAt < b.fireAt ∨ (a.fireAt = b.fireAt ∧ a.id ≤ b.id)).take 101
  else []

/-- A row of `EXECUTION_CONTEXT_SQL`, and what `readExecutionContext` makes of
    it.  Without an execution all other columns are null. -/
def contextOf (cols : OtherColumns) (db : Db) (instanceId : Nat) (stepId : StepId) :
    ExecutionContext :=
  let executions := executionsOf db instanceId stepId
  let execution := latestExecution cols executions
  let runningCount := executions.countP fun r => decide (r.status = .running)
  let jobs := execution.elim [] (contextJobs db instanceId)
  let tasks := execution.elim [] (contextTasks db instanceId)
  let timers := execution.elim [] (contextTimers db instanceId)
  let job := Table.latest (fun r : Job => toLex (r.createdAt, r.id)) jobs
  let task := Table.latest (fun u : UserTask => toLex (cols.createdAt u.id, u.id)) tasks
  let stepType : Option StepType := execution.map (·.stepType)
  let conflict := decide (1 < runningCount) || decide (1 < jobs.length) || decide (1 < tasks.length)
  let running := decide (execution.map (·.status) = some .running)
  let reason : WaitReason :=
    if conflict || !running then .unavailable
    else
      match stepType, job, task with
      | some .wait, _, _ => .signal
      | some .userTask, _, some _ => .userTask
      | some .serviceTask, some r, _ => if r.status = .locked then .jobLocked else .jobAvailable
      | _, _, _ => .unavailable
  let valid := decide (reason ≠ .unavailable)
  { stepId := stepId
    executionId := execution.map (·.id)
    stepType := stepType
    status := execution.map (·.status)
    startedAt := execution.map fun e => cols.startedAt e.id
    reason := reason
    unavailableReason :=
      if conflict then some "Conflicting live execution records"
      else if running then
        if valid then none
        else some "Related evidence is missing or this step type is unsupported"
      else some "No running execution evidence"
    job := if valid && decide (stepType = some .serviceTask) then job.map contextJob else none
    task := if valid && decide (stepType = some .userTask) then task.map (contextTask cols) else none
    timers := (timers.take 100).map contextTimer
    timersTruncated := decide (100 < timers.length) }

/-- The `executionContext` of `detail`. -/
def executionContext (cols : OtherColumns) (db : Db) (inst : WorkflowInstance) :
    List ExecutionContext :=
  (if inst.status.inFlight then inst.currentStepIDs else []).map (contextOf cols db inst.id)

end Rochallor.Monitor
