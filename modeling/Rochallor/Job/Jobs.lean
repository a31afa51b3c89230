import Rochallor.Instance.Lifecycle

/-! # Job operations

    `internal/job`: failing a job, replacing a delivery attempt (forced retry
    and lease recovery), heartbeats and polling.  A job id identifies one
    delivery attempt; a retry is a new row for the same step execution.
-/

namespace Rochallor

variable (svc : Service) (now : Time)

/-- The job fields a replacement copies. -/
def Job.toDispatchJob (j : Job) : DispatchJob where
  id := j.id
  instanceID := j.instanceID
  stepExecutionID := j.stepExecutionID
  jobType := j.jobType
  retriesRemaining := j.retriesRemaining
  payload := j.payload
  createdAt := j.createdAt

/-- `enqueueReplacement`: a new row and its dispatch, in the same transaction. -/
def enqueueReplacement (db : Db) (j : DispatchJob) : Db :=
  enqueue svc.dispatcher
    (db.insertJob now j.instanceID j.stepExecutionID j.jobType j.retriesRemaining j.payload)
    { j with id := db.nextId, createdAt := now }

/-- `Fail`. -/
def failJob (db : Db) (jobID : Nat) (workerID errorMessage : String) (retryable : Bool) :
    Except EngineError Plan := do
  let state ← lockJobExecution now db jobID
  if !state.acceptsCallback workerID then return .commit db none
  let j ← orError (.message "job not found") (db.getJob jobID)
  let db := db.markJobFailed jobID workerID
  if retryable && decide (0 < j.retriesRemaining) then
    return .commit (enqueueReplacement svc now db
      { j.toDispatchJob with retriesRemaining := j.retriesRemaining - 1 }) none
  -- not retryable or retries exhausted: the step and the instance fail too
  let db := db.failStepExecutionByID now j.stepExecutionID errorMessage
  return .commit (db.markInstanceFailed now j.instanceID errorMessage) none

/-- `retryJob`: replaces a locked attempt without spending a retry.  The lease
    sweeper passes `expiredOnly`. -/
def retryJob (db : Db) (jobID : Nat) (expiredOnly : Bool) : Except EngineError Plan := do
  let state ← lockJobExecution now db jobID
  if !state.active || state.jobStatus != .locked || (expiredOnly && state.leaseValid) then
    return .commit db none
  let db := db.cancelLockedJob jobID
  let j ← orError (.message "job not found") (db.getJob jobID)
  return .commit (enqueueReplacement svc now db j.toDispatchJob) none

/-! ## Leases -/

/-- `LeaseSeconds`. -/
def leaseSeconds (seconds : Int) : Except EngineError Int :=
  if seconds = 0 then .ok 30
  else if seconds < 5 ∨ 3600 < seconds then .error .invalidLeaseSeconds
  else .ok seconds

/-- The row the renewing `UPDATE` matches at its own clock reading. -/
def renewable (now : Time) (jobID : Nat) (workerID : String) (r : Job) : Bool :=
  decide (r.id = jobID) && r.workerID == some workerID && decide (r.status = .locked) &&
    r.lockExpiresAt.any fun t => decide (now < t)

/-- The renewed row: `GREATEST` never shortens a longer lease. -/
def renewed (now : Time) (seconds : Int) (r : Job) : Job :=
  { r with lockExpiresAt := r.lockExpiresAt.map fun t => max t (now + seconds * 1000000000) }

/-- `ExtendJobLease`: `none` when the lease is not (or no longer) held.  The
    state is inspected at `now` and rechecked by the update at `later`. -/
def extendJobLease (later : Time) (db : Db) (jobID : Nat) (workerID : String) (seconds : Int) :
    Option Db :=
  match lockJobExecution now db jobID with
  | .error _ => none
  | .ok state =>
    if !state.active || state.jobStatus != .locked || state.workerID != workerID ||
        !state.leaseValid then none
    else if db.jobs.any (renewable later jobID workerID) then
      some (db.updateJobs (renewable later jobID workerID) (renewed later seconds))
    else none

/-- `ExtendLease`. -/
def extendLease (later : Time) (db : Db) (jobID : Nat) (workerID : String) (seconds : Int) :
    Except EngineError Plan := do
  if workerID.isEmpty then throw .invalidLeaseOwner
  let seconds ← leaseSeconds seconds
  match extendJobLease now later db jobID workerID seconds with
  | none => throw .leaseLost
  | some db => return .commit db none

/-- `PollWithLease`: the jobs handed out and the tables after the claim. -/
def pollWithLease (db : Db) (workerID : String) (jobTypes : List String) (max : Nat)
    (seconds : Int) (rowLocked : List Nat) : Except EngineError (List Job × Db) := do
  let seconds ← leaseSeconds seconds
  return db.pollJobs now workerID jobTypes max seconds rowLocked

end Rochallor
