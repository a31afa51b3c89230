import Rochallor.Kafka.Deployment

/-! # Polling runners

    The Go SDK's `runner` package: any number of runners poll one engine, run
    handlers on the jobs they are given and report what the handlers came to.
    A runner believes in a lease until the deadline of the attempt's context,
    which it takes from the engine's answers alone.

    Between a runner and the engine lies a network.  The answer to a poll or a
    heartbeat may be lost or come late, and a report, once sent, may reach the
    engine at any time and any number of times.  Runners and engine read one
    clock.
-/

namespace Rochallor

/-- `Config`, with the job types of the registry. -/
structure RunnerConfig where
  workerID : String
  jobTypes : List String
  /-- Slots for handlers. -/
  parallelism : Nat
  leaseSeconds : Int
  heartbeat : Bool

/-- Where `dispatch` stands. -/
inductive AttemptPhase where
  /-- Waiting for the first heartbeat to be accepted. -/
  | starting
  /-- The handler runs. -/
  | handling
  /-- The handler has returned and its outcome is being delivered. -/
  | reporting
  deriving DecidableEq, Repr

/-- One `dispatch`, in its slot. -/
structure Attempt where
  /-- The runner, as an index. -/
  runner : Nat
  jobID : Nat
  /-- The deadline of the attempt's context. -/
  expiry : Option Time
  phase : AttemptPhase

namespace Attempt

/-- `ctx.Err() == nil`, as far as the deadline goes. -/
def alive (now : Time) (a : Attempt) : Bool :=
  a.expiry.all fun t => decide (now < t)

/-- The job is still to be worked on: its handler has not returned. -/
def working (a : Attempt) : Bool :=
  decide (a.phase ≠ .reporting)

/-- `maintainLease` on an accepted heartbeat.  The attempt ends if its lease
    has run out meanwhile or the answer would shorten it. -/
def renew (now validUntil : Time) (a : Attempt) : Option Attempt :=
  match a.expiry with
  | none => some a
  | some expiry =>
    if expiry ≤ now then none
    else if validUntil ≤ now ∨ validUntil < expiry then none
    else some { a with expiry := some validUntil,
                       phase := if a.phase = .starting then .handling else a.phase }

end Attempt

/-- `leaseContext`: what becomes of a job that has been handed out.  Without
    heartbeats the attempt has the deadline of the lease, if there is one; with
    them a job without lease metadata is refused. -/
def leaseContext (cfg : RunnerConfig) (runner : Nat) (job : Job) : Option Attempt :=
  if cfg.heartbeat then
    job.lockExpiresAt.map fun t => ⟨runner, job.id, some t, .starting⟩
  else some ⟨runner, job.id, job.lockExpiresAt, .handling⟩

/-- An answer to a poll, under way to its runner. -/
structure PollAnswer where
  runner : Nat
  jobs : List Job

/-- An accepted heartbeat, under way to its runner. -/
structure Renewal where
  runner : Nat
  jobID : Nat
  validUntil : Time

/-- The outcome of a handler, once it has been sent. -/
structure Report where
  workerID : String
  jobID : Nat
  outcome : WorkerCallback

/-- The engine, the runners and the network between them. -/
structure Fleet where
  db : Db := {}
  clock : Time := 0
  attempts : List Attempt := []
  polls : List PollAnswer := []
  renewals : List Renewal := []
  reports : List Report := []
  /-- A history variable: the step executions whose job an operator has
      replaced by force. -/
  forced : List Nat := []

inductive FleetEvent where
  | tick (d : Nat)
  /-- Any call of the engine's API other than those of the runners. -/
  | engine (op : Op) (fuel : Nat)
  /-- `pollAndDispatch`, up to the engine's answer. -/
  | poll (runner : Nat) (rowLocked : List Nat)
  /-- The answer arrives, and the jobs take their slots. -/
  | polled (runner : Nat)
  /-- The answer is lost. -/
  | pollLost (runner : Nat)
  /-- `ExtendJobLease`, up to the engine's answer. -/
  | heartbeat (runner jobID : Nat)
  /-- The answer to the i-th heartbeat under way arrives. -/
  | renewed (i : Nat)
  /-- The handler returns, and its outcome is sent if the attempt is alive. -/
  | returned (runner jobID : Nat) (outcome : WorkerCallback)
  /-- The i-th report reaches the engine. -/
  | report (i : Nat) (fuel : Nat)
  /-- `dispatch` returns: the report is confirmed or rejected, the deadline has
      passed, a heartbeat was refused or the runner is shut down. -/
  | done (runner jobID : Nat)

/-- The callers of these operations are the runners. -/
def Op.fromRunner : Op → Bool
  | .completeJob _ _ _ | .failJob _ _ _ _ | .poll _ _ _ _ _ => true
  | _ => false

namespace Fleet

/-- The attempt of a runner on a job. -/
def isOf (runner jobID : Nat) (a : Attempt) : Bool :=
  decide (a.runner = runner) && decide (a.jobID = jobID)

/-- The step execution an operator's retry replaces a job of. -/
def forcedBy (db : Db) : Op → List Nat
  | .retryJob jobID => ((db.getJob jobID).map (·.stepExecutionID)).toList
  | _ => []

variable (svc : Service) (cfg : Nat → RunnerConfig)

/-- `cap(sem) - len(sem)`. -/
def available (s : Fleet) (runner : Nat) : Nat :=
  (cfg runner).parallelism - s.attempts.countP fun a => decide (a.runner = runner)

/-- A runner polls when it has a free slot and no poll under way. -/
def poll (s : Fleet) (runner : Nat) (rowLocked : List Nat) : Fleet :=
  if s.polls.any (fun p => decide (p.runner = runner)) || s.available cfg runner = 0 then s
  else
    match pollWithLease s.clock s.db (cfg runner).workerID (cfg runner).jobTypes
        (s.available cfg runner) (cfg runner).leaseSeconds rowLocked with
    | .error _ => s
    | .ok (jobs, db) => { s with db := db, polls := s.polls ++ [⟨runner, jobs⟩] }

def polled (s : Fleet) (runner : Nat) : Fleet :=
  { s with
    attempts := s.attempts ++ (s.polls.filter fun p => decide (p.runner = runner)).flatMap fun p =>
      p.jobs.filterMap (leaseContext (cfg p.runner) p.runner)
    polls := s.polls.filter fun p => !decide (p.runner = runner) }

def heartbeat (s : Fleet) (runner jobID : Nat) : Fleet :=
  let call : Call := ⟨.heartbeat s.clock jobID (cfg runner).workerID (cfg runner).leaseSeconds,
    s.clock, 0⟩
  match perform svc s.db call with
  | (_, some _) => s
  | (db, none) =>
    { s with
      db := db
      renewals := s.renewals ++
        (((db.getJob jobID).bind (·.lockExpiresAt)).map fun t => ⟨runner, jobID, t⟩).toList }

def renewed (s : Fleet) (x : Renewal) : Fleet :=
  { s with attempts := s.attempts.filterMap fun a =>
      if isOf x.runner x.jobID a then a.renew s.clock x.validUntil else some a }

/-- After the handler, `dispatch` gives up if the context has ended. -/
def returned (s : Fleet) (runner jobID : Nat) (outcome : WorkerCallback) : Fleet :=
  let sends (a : Attempt) : Bool :=
    isOf runner jobID a && decide (a.phase = .handling) && a.alive s.clock
  { s with
    attempts := s.attempts.map fun a => if sends a then { a with phase := .reporting } else a
    reports := s.reports ++
      (s.attempts.filter sends).map fun _ => ⟨(cfg runner).workerID, jobID, outcome⟩ }

/-- A report at the engine. -/
def Report.call (now : Time) (fuel : Nat) (x : Report) : Call :=
  ⟨x.outcome.op x.jobID x.workerID, now, fuel⟩

def step (s : Fleet) : FleetEvent → Fleet
  | .tick d => { s with clock := s.clock + d }
  | .engine op fuel =>
    if op.fromRunner then s
    else { s with db := apply svc s.db ⟨op, s.clock, fuel⟩, forced := s.forced ++ forcedBy s.db op }
  | .poll runner rowLocked => s.poll cfg runner rowLocked
  | .polled runner => s.polled cfg runner
  | .pollLost runner => { s with polls := s.polls.filter fun p => !decide (p.runner = runner) }
  | .heartbeat runner jobID => s.heartbeat svc cfg runner jobID
  | .renewed i =>
    match s.renewals[i]? with
    | none => s
    | some x => { s.renewed x with renewals := s.renewals.eraseIdx i }
  | .returned runner jobID outcome => s.returned cfg runner jobID outcome
  | .report i fuel =>
    match s.reports[i]? with
    | none => s
    | some x => { s with db := apply svc s.db (Report.call s.clock fuel x) }
  | .done runner jobID => { s with attempts := s.attempts.filter fun a => !isOf runner jobID a }

/-- The fleet after the events, from empty tables. -/
def run (events : List FleetEvent) : Fleet :=
  Run.after (step svc cfg) {} events

end Fleet

end Rochallor
