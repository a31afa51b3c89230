import Rochallor.Kafka.Consumer

/-! # The Node runner

    `eachBatch` pauses the partition, returns the batch unresolved, so that the
    client rewinds it, and leaves the record to an asynchronous task.  The
    rebalance callback aborts the owner at once but waits for a submitted
    commit before it lets the partition go.  What runs between two `await`s is
    one step.
-/

namespace Rochallor

/-- Where the task of a record stands. -/
inductive NodeTask where
  | dispatching (d : PolledRecord) (phase : WorkPhase)
  /-- `commitOffsets` is under way. -/
  | committing (d : PolledRecord)

def NodeTask.record : NodeTask → PolledRecord
  | .dispatching d _ => d
  | .committing d => d

/-- The consumer of one job type. -/
structure NodeConsumer where
  member : Membership := {}
  /-- The owner of the task each partition is paused for. -/
  active : TopicPartition → Option Nat := fun _ => none
  /-- A commit of the partition is under way. -/
  commits : TopicPartition → Bool := fun _ => false
  tasks : Nat → Option NodeTask := fun _ => none
  nextTask : Nat := 0

inductive NodeEvent where
  /-- `rebalance_cb` for an assigned partition. -/
  | assigned (tp : TopicPartition)
  /-- `rebalance_cb` for a revoked partition, up to its `await`. -/
  | revoked (tp : TopicPartition)
  /-- The callback returns and the client lets the partition go. -/
  | handedOff (tp : TopicPartition)
  /-- `eachBatch`; `stale` stands for `isStale() || !isRunning()`. -/
  | eachBatch (tp : TopicPartition) (stale : Bool)
  | work (task : Nat) (e : WorkEvent)
  /-- The task goes on after its `dispatch`. -/
  | submit (task : Nat)
  /-- The commit is settled and the task goes on. -/
  | settled (task : Nat) (outcome : CommitOutcome)

namespace NodeConsumer

/-- `dispatch`: the signal is checked once more before the id is marked. -/
def dispatch (v : View) (owned : Bool) (d : PolledRecord) :
    WorkPhase → WorkEvent → WorkPhase × List Effect :=
  dispatchWork true v owned d

/-- The task ends, normally or by an error, which leaves the partition paused. -/
def finish (c : NodeConsumer) (task : Nat) (d : PolledRecord) : NodeConsumer :=
  { c with
    active :=
      if c.active d.partition = some d.owner then Function.update c.active d.partition none
      else c.active
    tasks := Function.update c.tasks task none }

def step (v : View) (c : NodeConsumer) : NodeEvent → NodeConsumer × List Effect
  | .assigned tp => ({ c with member := c.member.assigned tp (v.committed tp) }, [])
  | .revoked tp => ({ c with member := c.member.disown tp }, [])
  | .handedOff tp =>
    if (c.member.owners tp).isNone && !c.commits tp then
      ({ c with member := c.member.unassign tp }, [])
    else (c, [])
  | .eachBatch tp stale =>
    match c.member.next v.log tp, c.member.owners tp with
    | some (assignment, message), some owner =>
      if v.stopping || stale then (c, [])
      else if c.active tp = some owner then (c, [])
      else
        -- the client rewinds the unresolved batch, so the position stays
        let d : PolledRecord := ⟨tp, c.member.position tp, message, owner, assignment⟩
        ({ c with
            member := (c.member.setPaused tp true).deliver d
            active := Function.update c.active tp (some owner)
            tasks := Function.update c.tasks c.nextTask (some (.dispatching d .received))
            nextTask := c.nextTask + 1 }, [])
    | _, _ => (c, [])
  | .work task e =>
    match c.tasks task with
    | some (.dispatching d phase) =>
      let r := dispatch v (v.owned c.member d) d phase e
      ({ c with tasks := Function.update c.tasks task (some (.dispatching d r.1)) }, r.2)
    | _ => (c, [])
  | .submit task =>
    match c.tasks task with
    | some (.dispatching d .failed) => (c.finish task d, [])
    | some (.dispatching d .acknowledged) =>
      if !v.owned c.member d then (c.finish task d, [])
      else if c.member.owners d.partition ≠ some d.owner then (c.finish task d, [])
      else
        ({ c with
            commits := Function.update c.commits d.partition true
            tasks := Function.update c.tasks task (some (.committing d)) },
          [.commit d.partition d.offset])
    | _ => (c, [])
  | .settled task outcome =>
    match c.tasks task with
    | some (.committing d) =>
      let effects := if outcome.stored then [.stored d.partition (d.offset + 1)] else []
      let settled := { c with commits := Function.update c.commits d.partition false }
      if outcome.ok && v.owned c.member d && c.member.owners d.partition = some d.owner then
        ({ settled.finish task d with
            member := (c.member.seek d.partition (d.offset + 1)).setPaused d.partition false },
          effects)
      else (settled.finish task d, effects)
    | _ => (c, [])

end NodeConsumer

end Rochallor
