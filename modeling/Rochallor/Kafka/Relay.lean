import Rochallor.Data.Jsonb
import Rochallor.Engine

/-! # The outbox relay

    `drainOnce` runs one `dispatch-relay` transaction: it claims a batch of
    `dispatch_outbox` rows, produces a record for each, deletes the rows,
    writes their audit entries and commits.  A cycle is cut here at each call
    it makes, since the engine, the broker and other relays go on in between
    and since it can crash at any of them.

    A relay runs its cycles one after another, so several open cycles are
    several relays: nothing limits their number, as leadership may overlap.
-/

namespace Rochallor

/-! ## Rows and records -/

/-- `JobDispatchEvent`. -/
structure JobDispatchEvent where
  schemaVersion : Nat
  dedupID : Nat
  jobID : Nat
  instanceID : Nat
  stepExecutionID : Nat
  jobType : String
  retriesRemaining : Int
  jobPayload : Json
  createdAt : Time
  deriving DecidableEq

/-- The payload `Dispatcher.Enqueue` stores in a row.  The retries pass through
    an `int32`. -/
def OutboxRow.payload (o : OutboxRow) : JobDispatchEvent where
  schemaVersion := 1
  dedupID := o.id
  jobID := o.event.id
  instanceID := o.event.instanceID
  stepExecutionID := o.event.stepExecutionID
  jobType := o.event.jobType
  retriesRemaining := Int.bmod o.event.retriesRemaining (2 ^ 32)
  jobPayload := o.event.payload
  createdAt := o.event.createdAt

/-- `kgo.Record`, with its two headers. -/
structure Record where
  topic : String
  key : Nat
  value : JobDispatchEvent
  contentType : String
  dedupID : Nat
  deriving DecidableEq

def topicFor (jobType : String) : String :=
  "workflow.jobs." ++ jobType

/-- The record of an outbox row. -/
def OutboxRow.record (o : OutboxRow) : Record where
  topic := topicFor o.jobType
  key := o.instanceID
  value := o.payload
  contentType := "application/x-protobuf; proto=workflow.v1.JobDispatchEvent"
  dedupID := o.id

/-- A row of `audit_log`.  `jobID` is the `job_id` of its detail. -/
structure AuditLogEntry where
  actor : String
  kind : String
  instanceID : Nat
  jobID : Nat
  deriving DecidableEq

/-- The entry of a published row. -/
def OutboxRow.audit (o : OutboxRow) : AuditLogEntry :=
  ⟨"dispatch-relay", "DISPATCHED_VIA_BROKER", o.instanceID, o.jobID⟩

/-- `newRelay` falls back to a default batch size. -/
def relayLimit (batchSize : Int) : Nat :=
  if batchSize ≤ 0 then 200 else batchSize.toNat

/-! ## The system -/

/-- What a cycle does next. -/
inductive Phase where
  | produceSync
  | deleteByIDs
  | writeAuditEntries
  | commit
  deriving DecidableEq

/-- An open `dispatch-relay` transaction.  It holds the row locks of its batch;
    `deletes` and `audits` are the writes it has made so far. -/
structure Cycle where
  id : Nat
  batch : List OutboxRow
  phase : Phase := .produceSync
  deletes : List Nat := []
  audits : List AuditLogEntry := []

/-- The engine's tables, what committed cycles have done to `dispatch_outbox`
    and `audit_log`, and the records the broker has acknowledged. -/
structure Relays where
  db : Db := {}
  deleted : List Nat := []
  audit : List AuditLogEntry := []
  acknowledged : List Record := []
  cycles : List Cycle := []
  nextCycle : Nat := 0

/-- What happens next.  An error argument is the error the call returns. -/
inductive RelayEvent where
  /-- An engine transaction. -/
  | call (c : Call)
  /-- `RunInTx` begins and `ClaimBatch` returns the rows with these ids. -/
  | claimBatch (batchSize : Int) (ids : List Nat)
  /-- The broker stores and acknowledges a record of the batch. -/
  | acknowledge (cycle index : Nat)
  /-- `ProduceSync` returns one result for each record. -/
  | produceSync (cycle : Nat) (results : List (Option String))
  | deleteByIDs (cycle : Nat) (err : Option String)
  | writeAuditEntries (cycle : Nat) (err : Option String)
  | commit (cycle : Nat) (err : Option String)
  /-- The relay or its connection dies; Postgres rolls back. -/
  | crash (cycle : Nat)

namespace Relays

/-- The committed rows of `dispatch_outbox`. -/
def table (s : Relays) : List OutboxRow :=
  s.db.outbox.filter fun o => decide (o.id ∉ s.deleted)

/-- Some open cycle holds the lock of the row. -/
def locked (s : Relays) (o : OutboxRow) : Bool :=
  s.cycles.any fun c => c.batch.any fun r => decide (r.id = o.id)

/-- `ClaimBatch`: `ORDER BY created_at LIMIT … FOR UPDATE SKIP LOCKED` can
    return any unlocked rows within the limit in this order.  Not always the
    oldest ones: the order of equal times is open, and rows that were locked or
    not yet committed when the statement began are missing. -/
def claim (s : Relays) (limit : Nat) (ids : List Nat) : Option (List OutboxRow) :=
  let rows := ids.filterMap fun i => s.table.find? fun o => decide (o.id = i)
  if rows.length = ids.length ∧ ids.Nodup ∧ ids.length ≤ limit ∧
      (∀ o ∈ rows, s.locked o = false) ∧
      (rows.map (·.event.createdAt)).Pairwise (· ≤ ·) then
    some rows
  else none

/-- The open cycle, if it is about to make this call. -/
def atPhase (s : Relays) (cycle : Nat) (phase : Phase) : Option Cycle :=
  s.cycles.find? fun c => decide (c.id = cycle) && decide (c.phase = phase)

/-- The cycle goes on. -/
def advance (s : Relays) (cycle : Nat) (f : Cycle → Cycle) : Relays :=
  { s with cycles := Table.update (fun c => decide (c.id = cycle)) f s.cycles }

/-- The transaction of the cycle is over and its locks are released. -/
def close (s : Relays) (cycle : Nat) : Relays :=
  { s with cycles := s.cycles.filter fun c => decide (c.id ≠ cycle) }

end Relays

/-- One event.  An event that cannot happen in the state changes nothing. -/
def relayStep (svc : Service) (s : Relays) : RelayEvent → Relays
  | .call c => { s with db := apply svc s.db c }
  | .claimBatch batchSize ids =>
    match s.claim (relayLimit batchSize) ids with
    -- an empty batch: the body returns at once and the commit has no effect
    | none | some [] => s
    | some batch =>
      { s with cycles := s.cycles ++ [{ id := s.nextCycle, batch := batch }],
               nextCycle := s.nextCycle + 1 }
  | .acknowledge cycle index =>
    match s.atPhase cycle .produceSync with
    | none => s
    | some c =>
      match c.batch[index]? with
      | none => s
      | some o => { s with acknowledged := s.acknowledged ++ [o.record] }
  | .produceSync cycle results =>
    match s.atPhase cycle .produceSync with
    | none => s
    | some _ =>
      -- `FirstErr`: one failed record fails the cycle
      match results.findSome? id with
      | some _ => s.close cycle
      | none => s.advance cycle fun c => { c with phase := .deleteByIDs }
  | .deleteByIDs cycle err =>
    match s.atPhase cycle .deleteByIDs, err with
    | none, _ => s
    | some _, some _ => s.close cycle
    | some _, none => s.advance cycle fun c =>
      { c with phase := .writeAuditEntries, deletes := c.batch.map (·.id) }
  | .writeAuditEntries cycle err =>
    match s.atPhase cycle .writeAuditEntries, err with
    | none, _ => s
    | some _, some _ => s.close cycle
    | some _, none => s.advance cycle fun c =>
      { c with phase := .commit, audits := c.batch.map (·.audit) }
  | .commit cycle err =>
    match s.atPhase cycle .commit, err with
    | none, _ => s
    | some _, some _ => s.close cycle
    | some c, none =>
      { s.close cycle with
        deleted := s.deleted ++ c.deletes
        audit := s.audit ++ c.audits }
  | .crash cycle => s.close cycle

/-- What is assumed of `ProduceSync`: it reports a result for each record of
    the batch, and an error for each one that was not acknowledged. -/
def ProduceSyncReports (s : Relays) : RelayEvent → Prop
  | .produceSync cycle results =>
    ∀ c ∈ s.cycles, c.id = cycle → results.length = c.batch.length ∧
      ∀ p ∈ c.batch.zip results, p.2 = none → p.1.record ∈ s.acknowledged
  | _ => True

instance (s : Relays) (e : RelayEvent) : Decidable (ProduceSyncReports s e) := by
  cases e <;> unfold ProduceSyncReports <;> infer_instance

/-- The event ends the cycle without committing it. -/
def RelayEvent.fails (c : Cycle) : RelayEvent → Bool
  | .produceSync cycle results =>
    decide (c.id = cycle ∧ c.phase = .produceSync) && (results.findSome? id).isSome
  | .deleteByIDs cycle err => decide (c.id = cycle ∧ c.phase = .deleteByIDs) && err.isSome
  | .writeAuditEntries cycle err =>
    decide (c.id = cycle ∧ c.phase = .writeAuditEntries) && err.isSome
  | .commit cycle err => decide (c.id = cycle ∧ c.phase = .commit) && err.isSome
  | .crash cycle => decide (c.id = cycle)
  | _ => false

end Rochallor
