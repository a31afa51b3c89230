import Rochallor.Data.Json
import Mathlib.Logic.Function.Basic

/-! # Kafka consumers

    What the runners of the three SDKs have in common: the partitions a
    consumer is assigned, the owner object each keeps for an assignment, and
    the dispatch of one record to its handler and of the handler's outcome to
    the engine.

    The Kafka clients are third-party code.  What is modelled of them is that
    within an assignment records arrive in offset order from the committed
    offset on, and that a paused partition delivers nothing.
-/

namespace Rochallor

structure TopicPartition where
  topic : String
  partition : Nat
  deriving DecidableEq

/-- What a runner acts on in a `JobDispatchEvent`.  An empty id is `none`. -/
structure DispatchEvent where
  jobID : Option Nat
  dedupID : Option Nat
  deriving DecidableEq

/-- The value of a record, as the runner decodes it. -/
abbrev Message := Option DispatchEvent

/-- The records of each partition; the offset of a record is its index. -/
abbrev PartitionLog := TopicPartition → List Message

/-- A record handed to the runner.  `assignment` is the assignment it was
    delivered in, `owner` the object the runner found for its partition. -/
structure PolledRecord where
  partition : TopicPartition
  offset : Nat
  message : Message
  owner : Nat
  assignment : Nat
  deriving DecidableEq

/-! ## Assignments and their owners -/

/-- The partitions of one consumer.  Above the client's side: the number of the
    current assignment of each partition, the next offset to deliver, and
    whether delivery is paused.  Below it the runner's own bookkeeping: the
    owner of each partition, and the owners that have been ended (a cancelled
    context, a cleared flag or an aborted controller). -/
structure Membership where
  assignment : TopicPartition → Option Nat := fun _ => none
  assignments : Nat := 0
  position : TopicPartition → Nat := fun _ => 0
  paused : TopicPartition → Bool := fun _ => false
  delivered : List PolledRecord := []
  owners : TopicPartition → Option Nat := fun _ => none
  ended : List Nat := []
  nextOwner : Nat := 0

namespace Membership

/-- A new assignment, and the callback that gives it an owner unless the
    partition has one. -/
def assigned (m : Membership) (tp : TopicPartition) (committed : Nat) : Membership :=
  if (m.assignment tp).isSome then m
  else
    let m := { m with
      assignment := Function.update m.assignment tp (some m.assignments)
      assignments := m.assignments + 1
      position := Function.update m.position tp committed
      paused := Function.update m.paused tp false }
    if (m.owners tp).isSome then m
    else
      { m with
        owners := Function.update m.owners tp (some m.nextOwner)
        nextOwner := m.nextOwner + 1 }

/-- Ends the owner of a partition and forgets it. -/
def disown (m : Membership) (tp : TopicPartition) : Membership :=
  match m.owners tp with
  | none => m
  | some owner =>
    { m with owners := Function.update m.owners tp none, ended := owner :: m.ended }

/-- The client gives the partition up. -/
def unassign (m : Membership) (tp : TopicPartition) : Membership :=
  { m with assignment := Function.update m.assignment tp none }

/-- A revocation whose callback runs to its end. -/
def revoked (m : Membership) (tp : TopicPartition) : Membership :=
  (m.disown tp).unassign tp

/-- The record the client delivers next, with its assignment. -/
def next (m : Membership) (log : PartitionLog) (tp : TopicPartition) : Option (Nat × Message) :=
  if m.paused tp then none
  else
    match m.assignment tp, (log tp)[m.position tp]? with
    | some assignment, some message => some (assignment, message)
    | _, _ => none

def seek (m : Membership) (tp : TopicPartition) (offset : Nat) : Membership :=
  { m with position := Function.update m.position tp offset }

def setPaused (m : Membership) (tp : TopicPartition) (paused : Bool) : Membership :=
  { m with paused := Function.update m.paused tp paused }

/-- Hands a record out. -/
def deliver (m : Membership) (d : PolledRecord) : Membership :=
  { m with delivered := d :: m.delivered }

end Membership

/-! ## Effects -/

/-- What a consumer does to the rest of the system. -/
inductive Effect where
  /-- The engine has confirmed the callback of a record. -/
  | confirm (partition : TopicPartition) (offset : Nat)
  /-- A dedup id enters the runner's cache. -/
  | mark (dedupID : Nat)
  /-- The runner is told to stop. -/
  | stop
  /-- The offset after this one is handed to the broker. -/
  | commit (partition : TopicPartition) (offset : Nat)
  /-- The broker stores a committed offset. -/
  | stored (partition : TopicPartition) (offset : Nat)
  deriving DecidableEq

/-- How a commit ends: what the client reports, and whether the broker has
    stored the offset, which it may have done even when an error is reported. -/
structure CommitOutcome where
  ok : Bool
  stored : Bool

/-- The effects of a commit that is made and settled in one step. -/
def CommitOutcome.effects (o : CommitOutcome) (d : PolledRecord) : List Effect :=
  if o.stored then
    [.commit d.partition d.offset, .stored d.partition (d.offset + 1)]
  else [.commit d.partition d.offset]

/-- What a consumer sees of its surroundings. -/
structure View where
  log : PartitionLog
  committed : TopicPartition → Nat
  /-- The runner is stopping. -/
  stopping : Bool
  /-- The runner's unexpired confirmed dedup ids. -/
  dedup : List Nat

/-- The ownership the record was delivered under is still good. -/
def View.owned (v : View) (m : Membership) (d : PolledRecord) : Bool :=
  !v.stopping && !decide (d.owner ∈ m.ended)

/-! ## Dispatching one record -/

/-- The frozen outcome of a handler. -/
inductive WorkerCallback where
  | complete (vars : GoMap Value)
  | fail (reason : String) (retryable : Bool)

/-- Where the dispatch of a record stands. -/
inductive WorkPhase where
  | received
  /-- The handler runs. -/
  | handling
  /-- The callback is attempted. -/
  | sending (callback : WorkerCallback)
  /-- The engine has answered without an error. -/
  | answered
  | checked
  /-- The dispatch has returned. -/
  | acknowledged
  /-- The dispatch has failed. -/
  | failed

/-- How an attempt of the callback ends. -/
inductive AttemptResult where
  | confirmed
  /-- An error that retrying cannot fix. -/
  | rejected
  | unavailable

inductive WorkEvent where
  | begin
  | handled (callback : WorkerCallback)
  | attempt (result : AttemptResult)
  | check
  | mark

/-- The dispatch of a record, cut at its calls.  `recheck` says whether the
    ownership is looked at again after the engine has answered. -/
def dispatchWork (recheck : Bool) (v : View) (owned : Bool) (d : PolledRecord) :
    WorkPhase → WorkEvent → WorkPhase × List Effect
  | .received, .begin =>
    if !owned then (.failed, [])
    else
      match d.message with
      | none => (.failed, [])
      | some event =>
        if event.jobID = none then (.failed, [])
        else if event.dedupID.any fun id => decide (id ∈ v.dedup) then (.acknowledged, [])
        else (.handling, [])
  | .handling, .handled callback => (.sending callback, [])
  | .sending callback, .attempt result =>
    if !owned then (.failed, [])
    else
      match result with
      | .confirmed => (.answered, [.confirm d.partition d.offset])
      | .rejected => (.failed, [])
      | .unavailable => (.sending callback, [])
  | .answered, .check => if recheck && !owned then (.failed, []) else (.checked, [])
  | .checked, .mark =>
    (.acknowledged,
      match d.message.bind (·.dedupID) with
      | none => []
      | some id => [.mark id])
  | phase, _ => (phase, [])

end Rochallor
