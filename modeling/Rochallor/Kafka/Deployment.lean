import Rochallor.Kafka.Group
import Rochallor.Kafka.Relay

/-! # The Kafka deployment

    The engine in `kafka_outbox` mode, its relays, the broker and the Go
    runners as one state machine.  What a relay produces is what the consumers
    poll, and the callbacks of the consumers are calls of the engine.
-/

namespace Rochallor

/-- What a runner finds in the value of a record. -/
def JobDispatchEvent.message (e : JobDispatchEvent) : Message :=
  some ⟨some e.jobID, some e.dedupID⟩

/-- The callback of a job, as the engine receives it. -/
def WorkerCallback.op (jobID : Nat) (workerID : String) : WorkerCallback → Op
  | .complete vars => .completeJob jobID workerID vars
  | .fail reason retryable => .failJob jobID workerID reason retryable

structure Deployment where
  relays : Relays := {}
  group : Group

/-- What becomes of one attempt of a callback. -/
inductive Exchange where
  /-- The engine is not reached. -/
  | lost
  /-- The engine does its part, and the answer does not get back. -/
  | unanswered
  /-- The answer gets back.  If it is an error, `permanent` says whether the
      client takes it for one that retrying cannot fix. -/
  | answered (permanent : Bool)

inductive DeploymentEvent where
  /-- An event of the engine or of a relay, other than a publication. -/
  | relay (e : RelayEvent)
  /-- The broker stores a record of the batch of a cycle; `acked` says whether
      the relay hears of it. -/
  | publish (cycle index partition : Nat) (acked : Bool)
  /-- An event of a consumer, other than an attempt of a callback. -/
  | consumer (runner index : Nat) (e : GoEvent)
  /-- A consumer attempts its callback. -/
  | callback (runner index : Nat) (now : Time) (fuel : Nat) (exchange : Exchange)
  | forget (runner id : Nat)
  | shutdown (runner : Nat)
  | restart (runner : Nat)

namespace Relays

/-- The record of the batch that is about to be stored. -/
def publishing (s : Relays) (cycle index : Nat) : Option Record :=
  (s.atPhase cycle .produceSync).bind fun c => c.batch[index]?.map (·.record)

end Relays

namespace Deployment

/-- Empty tables, an empty broker and new Go runners. -/
def init : Deployment where
  group := Group.init fun _ _ => .go {}

/-- The job and the callback a consumer is about to send, if its partition is
    still its own. -/
def sending (s : Deployment) (runner index : Nat) : Option (Nat × WorkerCallback) :=
  match (s.group.runners runner).consumers index with
  | .go c =>
    match c.loop with
    | .dispatching d (.sending callback) =>
      if (s.group.view runner).owned c.member d then
        (d.message.bind (·.jobID)).map (·, callback)
      else none
    | _ => none
  | _ => none

/-- The consumer learns how its attempt has ended. -/
def attempted (s : Deployment) (runner index : Nat) (result : AttemptResult) : Deployment :=
  { s with group := s.group.step (.consumer runner index (.go (.work (.attempt result)))) }

def called (svc : Service) (s : Deployment) (call : Call) : Deployment :=
  { s with relays := relayStep svc s.relays (.call call) }

/-- How the client takes an answer. -/
def answer (permanent : Bool) : Option EngineError → AttemptResult
  | none => .confirmed
  | some _ => if permanent then .rejected else .unavailable

/-- One event.  `workers` are the worker ids of the runners. -/
def step (svc : Service) (workers : Nat → String) (s : Deployment) :
    DeploymentEvent → Deployment
  | .relay e =>
    match e with
    | .acknowledge _ _ => s
    | e => { s with relays := relayStep svc s.relays e }
  | .publish cycle index partition acked =>
    match s.relays.publishing cycle index with
    | none => s
    | some r =>
      { relays := if acked then relayStep svc s.relays (.acknowledge cycle index) else s.relays
        group := s.group.step (.append ⟨r.topic, partition⟩ r.value.message) }
  | .consumer runner index e =>
    match e with
    | .work (.attempt _) => s
    | e => { s with group := s.group.step (.consumer runner index (.go e)) }
  | .callback runner index now fuel exchange =>
    match s.sending runner index, exchange with
    -- without its partition the dispatch ends before the engine is called
    | none, _ | _, .lost => s.attempted runner index .unavailable
    | some (jobID, callback), .unanswered =>
      (s.called svc ⟨callback.op jobID (workers runner), now, fuel⟩).attempted runner index
        .unavailable
    | some (jobID, callback), .answered permanent =>
      let call : Call := ⟨callback.op jobID (workers runner), now, fuel⟩
      (s.called svc call).attempted runner index
        (answer permanent (perform svc s.relays.db call).2)
  | .forget runner id => { s with group := s.group.step (.forget runner id) }
  | .shutdown runner => { s with group := s.group.step (.shutdown runner) }
  | .restart runner => { s with group := s.group.step (.restart runner) }

/-- Some consumer will still get to see the job: its outbox row is there, or a
    record of it that has not been committed. -/
def Reaches (s : Deployment) (jobID : Nat) : Prop :=
  (∃ o ∈ s.relays.table, o.jobID = jobID) ∨
    ∃ tp, ∃ m ∈ (s.group.log tp).drop (s.group.committed tp),
      m.bind (·.jobID) = some jobID

end Deployment

end Rochallor
