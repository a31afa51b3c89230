import Rochallor.Kafka.Consumer

/-! # The Java runner

    `consume` polls on one thread, which also runs the rebalance callbacks and
    makes the commits, and hands each record to a handler thread while its
    partition is paused.  One iteration looks at every pending entry and polls
    once; the events below allow these pieces in any order, so the iteration
    order of the map does not matter.
-/

namespace Rochallor

/-- The consumer of one job type. -/
structure JavaConsumer where
  member : Membership := {}
  /-- The handler thread of each paused partition. -/
  pending : TopicPartition → Option Nat := fun _ => none
  /-- The handler threads, which outlive their entries in `pending`. -/
  works : Nat → Option (PolledRecord × WorkPhase) := fun _ => none
  nextWork : Nat := 0
  /-- `consume` has returned. -/
  closed : Bool := false

inductive JavaEvent where
  /-- `onPartitionsAssigned`, for one partition. -/
  | assigned (tp : TopicPartition)
  /-- `onPartitionsRevoked`, for one partition; also when it is lost. -/
  | revoked (tp : TopicPartition)
  /-- `poll` returns the next record of the partition. -/
  | polled (tp : TopicPartition)
  /-- A handler thread goes on. -/
  | work (thread : Nat) (e : WorkEvent)
  /-- The loop looks at the pending entry of the partition. -/
  | completed (tp : TopicPartition) (outcome : CommitOutcome)
  /-- The loop ends: it sees `stopping`, or the client throws. -/
  | exit (error : Bool)

namespace JavaConsumer

/-- `dispatch`: `Callbacks.deliver` checks the ownership once more. -/
def dispatch (v : View) (owned : Bool) (d : PolledRecord) :
    WorkPhase → WorkEvent → WorkPhase × List Effect :=
  dispatchWork true v owned d

/-- The `finally` block of `consume`: every owner is ended, every thread
    interrupted and the client closed.  The maps are locals of the call. -/
def close (c : JavaConsumer) : JavaConsumer :=
  { c with
    member := { c.member with
      assignment := fun _ => none
      owners := fun _ => none
      ended := List.range c.member.nextOwner }
    pending := fun _ => none
    closed := true }

/-- An exception in the loop: `fail` stops the runner. -/
def fail (c : JavaConsumer) : JavaConsumer × List Effect :=
  (c.close, [.stop])

/-- The thread has returned or thrown. -/
def isDone : WorkPhase → Bool
  | .acknowledged | .failed => true
  | _ => false

/-- The body of the loop over `pending`. -/
def complete (v : View) (c : JavaConsumer) (tp : TopicPartition) (outcome : CommitOutcome) :
    JavaConsumer × List Effect :=
  match c.pending tp with
  | none => (c, [])
  | some thread =>
    match c.works thread with
    | none => (c, [])
    | some (d, phase) =>
      let removed := { c with pending := Function.update c.pending tp none }
      if !isDone phase then (c, [])
      else if decide (d.owner ∈ c.member.ended) || c.member.owners tp ≠ some d.owner then
        (removed, [])
      else
        match phase with
        | .failed => c.fail
        | _ =>
          if v.stopping then (c.close, [])
          else if outcome.ok then
            ({ removed with member := c.member.setPaused tp false }, outcome.effects d)
          else (c.close, outcome.effects d ++ [.stop])

def step (v : View) (c : JavaConsumer) : JavaEvent → JavaConsumer × List Effect
  | .assigned tp =>
    if c.closed then (c, [])
    else
      let member := c.member.assigned tp (v.committed tp)
      if (c.pending tp).isSome then ({ c with member := member.setPaused tp true }, [])
      else ({ c with member := member }, [])
  | .revoked tp =>
    ({ c with
        member := c.member.revoked tp
        pending := Function.update c.pending tp none }, [])
  | .polled tp =>
    if c.closed then (c, [])
    else
      match c.member.next v.log tp with
      | none => (c, [])
      | some (assignment, message) =>
        let offset := c.member.position tp
        let polled := { c with member := c.member.seek tp (offset + 1) }
        match c.member.owners tp, c.pending tp with
        | some owner, none =>
          if owner ∈ c.member.ended then polled.fail
          else
            let d : PolledRecord := ⟨tp, offset, message, owner, assignment⟩
            ({ polled with
                member := (polled.member.setPaused tp true).deliver d
                pending := Function.update c.pending tp (some c.nextWork)
                works := Function.update c.works c.nextWork (some (d, .received))
                nextWork := c.nextWork + 1 }, [])
        | _, _ => polled.fail
  | .work thread e =>
    match c.works thread with
    | none => (c, [])
    | some (d, phase) =>
      let r := dispatch v (v.owned c.member d) d phase e
      ({ c with works := Function.update c.works thread (some (d, r.1)) }, r.2)
  | .completed tp outcome => if c.closed then (c, []) else c.complete v tp outcome
  | .exit error =>
    if c.closed then (c, [])
    else if error then c.fail
    else if v.stopping then (c.close, [])
    else (c, [])

end JavaConsumer

end Rochallor
