import Rochallor.Job.Jobs
import Rochallor.Framework.Run

/-! # Runs of the engine

    The engine as a state machine: the state is the database, and an input is
    one call of an operation together with the clock it reads.

    A call is one step.  Every operation that dispatches, and every job
    operation, takes the row lock of its instance before it reads what it
    decides on, and reads the rest under that lock; `Cancel` is one `UPDATE`
    of the same row, so it waits for the lock too.  Polling and housekeeping
    are single statements that touch only job rows nobody has locked and only
    schedule rows.  So whatever the interleaving of the processes, the
    committed transactions have the effect of some order of these steps, and a
    run is a list of calls in that order.
-/

namespace Rochallor

/-- The operations. -/
inductive Op where
  | start (definitionID : String) (definitionVersion : Int) (vars : GoMap Value)
      (businessKey : String)
  | completeJob (jobID : Nat) (workerID : String) (vars : GoMap Value)
  | failJob (jobID : Nat) (workerID errorMessage : String) (retryable : Bool)
  /-- `later` is the clock of the renewing update. -/
  | heartbeat (later : Time) (jobID : Nat) (workerID : String) (seconds : Int)
  /-- A forced retry. -/
  | retryJob (jobID : Nat)
  /-- The lease sweeper, for one job it listed. -/
  | sweepLease (jobID : Nat)
  /-- `rowLocked` are the job rows other transactions hold. -/
  | poll (workerID : String) (jobTypes : List String) (max : Nat) (seconds : Int)
      (rowLocked : List Nat)
  | completeUserTask (instanceID : Nat) (stepID : StepId) (vars : GoMap Value)
  | signalWait (instanceID : Nat) (stepID : StepId) (vars : GoMap Value)
  | fireBoundaryEvent (eventID instanceID : Nat)
  /-- The housekeeper. -/
  | deleteObsoleteBoundaryEvents (retention : Int)
  | cancel (instanceID : Nat) (reason : String)
  | retryFailedStep (instanceID : Nat) (stepID : StepId) (variablesPatch : GoMap Value)
  /-- The chain processor, for the request of one completed parent. -/
  | startChain (source : Nat)

/-- One call: the operation, the clock, and the number of dispatches after
    which the call counts as not returning. -/
structure Call where
  op : Op
  now : Time
  fuel : Nat

/-- A `Start` of a stored definition without variables. -/
def WorkflowDefinition.start (d : WorkflowDefinition) : Call :=
  ⟨.start d.id d.version [] "", 0, 16⟩

variable (svc : Service)

/-! ## One call -/

/-- The operation up to its dispatches. -/
def plan (now : Time) (db : Db) : Op → Except EngineError Plan
  | .start definitionID version vars businessKey =>
    start svc now db definitionID version vars businessKey
  | .completeJob jobID workerID vars => completeJobAndAdvance svc now db jobID workerID vars
  | .failJob jobID workerID errorMessage retryable =>
    failJob svc now db jobID workerID errorMessage retryable
  | .heartbeat later jobID workerID seconds => extendLease now later db jobID workerID seconds
  | .retryJob jobID => retryJob svc now db jobID false
  | .sweepLease jobID => retryJob svc now db jobID true
  | .poll workerID jobTypes max seconds rowLocked =>
    (pollWithLease now db workerID jobTypes max seconds rowLocked).map fun r => .commit r.2 none
  | .completeUserTask instanceID stepID vars =>
    completeUserTaskAndAdvance svc now db instanceID stepID vars
  | .signalWait instanceID stepID vars => signalWaitAndAdvance svc now db instanceID stepID vars
  | .fireBoundaryEvent eventID instanceID => fireBoundaryEvent svc now db eventID instanceID
  | .deleteObsoleteBoundaryEvents retention =>
    .ok (.commit (db.deleteObsoleteBoundaryEvents now retention) none)
  | .cancel instanceID reason =>
    (db.cancelInstance now instanceID reason).map fun db => .commit db none
  | .retryFailedStep instanceID stepID patch =>
    retryFailedStep svc db instanceID stepID patch
  | .startChain source => startChainedWorkflow svc now db source

/-- Makes the dispatches of a plan.  The result is the tables to commit and
    the error the caller gets even so. -/
def Plan.settle (now : Time) (fuel : Nat) : Plan → Except EngineError (Db × Option EngineError)
  | .commit db reply => .ok (db, reply)
  | .dispatch d tx steps => do
    let tx ← dispatchAll svc now d fuel tx steps
    return (tx.db, none)
  | .chain d tx steps source => do
    let tx ← dispatchAll svc now d fuel tx steps
    return (tx.db.completeWorkflowChain source tx.inst.id, none)

/-- The transaction of a call. -/
def transact (db : Db) (call : Call) : Except EngineError (Db × Option EngineError) := do
  let p ← plan svc call.now db call.op
  p.settle svc call.now call.fuel

/-- A call: `RunInTx` commits on success and rolls back on any error. -/
def perform (db : Db) (call : Call) : Db × Option EngineError :=
  match transact svc db call with
  | .ok r => r
  | .error e => (db, some e)

/-- The tables after a call. -/
def apply (db : Db) (call : Call) : Db :=
  (perform svc db call).1

/-! ## Runs -/

/-- The tables after the calls, from empty tables. -/
def run (calls : List Call) : Db :=
  Run.after (apply svc) {} calls

/-- The committed states. -/
def Reachable (db : Db) : Prop :=
  ∃ calls, run svc calls = db

/-- A `dispatchStep` call of a committed transaction. -/
structure Dispatch where
  now : Time
  definition : WorkflowDefinition
  /-- The transaction before the dispatch. -/
  tx : Tx
  stepID : StepId
  /-- The dispatches that follow unless this one adds more before them. -/
  pending : List StepId

/-- The definition, the transaction and the steps a plan starts from. -/
def Plan.agenda : Plan → Option (WorkflowDefinition × Tx × List StepId)
  | .commit _ _ => none
  | .dispatch d tx steps => some (d, tx, steps)
  | .chain d tx steps _ => some (d, tx, steps)

/-- The dispatches a plan makes. -/
def Plan.dispatches (now : Time) (fuel : Nat) (p : Plan) : List Dispatch :=
  match p.agenda with
  | none => []
  | some (d, tx, steps) =>
    (Agenda.trace (dispatchStep svc now d) fuel tx steps).map fun m =>
      ⟨now, d, m.before, m.item, m.pending⟩

/-- The dispatches a call makes, if it commits. -/
def dispatches (db : Db) (call : Call) : List Dispatch :=
  match transact svc db call, plan svc call.now db call.op with
  | .ok _, .ok p => p.dispatches svc call.now call.fuel
  | _, _ => []

/-- The dispatches a call makes, whether or not it commits. -/
def attempts (db : Db) (call : Call) : List Dispatch :=
  match plan svc call.now db call.op with
  | .ok p => p.dispatches svc call.now call.fuel
  | .error _ => []

/-- The transaction of a call when its last dispatch has returned. -/
def finalTx (db : Db) (call : Call) : Option Tx :=
  match plan svc call.now db call.op with
  | .error _ => none
  | .ok p =>
    match p.agenda with
    | none => none
    | some (d, tx, steps) => (dispatchAll svc call.now d call.fuel tx steps).toOption

/-- All dispatches of a run. -/
def runDispatches (calls : List Call) : List Dispatch :=
  Run.outputs (apply svc) (dispatches svc) {} calls

end Rochallor
