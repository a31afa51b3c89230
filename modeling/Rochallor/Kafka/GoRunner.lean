import Rochallor.Kafka.Consumer

/-! # The Go runner

    `consumeLoop` handles one record at a time.  `ownership` keeps a
    cancellable context for each assignment under a mutex, which a commit
    holds while it talks to the broker, so that a revocation waits for it.
-/

namespace Rochallor

/-- Where `consumeLoop` stands. -/
inductive GoLoop where
  | polling
  | dispatching (d : PolledRecord) (phase : WorkPhase)
  | returned

/-- The consumer of one job type. -/
structure GoConsumer where
  member : Membership := {}
  loop : GoLoop := .polling

inductive GoEvent where
  /-- `ownership.assigned`, for one partition. -/
  | assigned (tp : TopicPartition)
  /-- `ownership.revoked`, for one partition; also when it is lost. -/
  | revoked (tp : TopicPartition)
  /-- `PollRecords` returns the next record of the partition. -/
  | polled (tp : TopicPartition)
  | work (e : WorkEvent)
  /-- `consumeLoop` goes on after `dispatchRecord`. -/
  | proceed (outcome : CommitOutcome)
  /-- `consumeLoop` sees its context cancelled. -/
  | exit

namespace GoConsumer

/-- `dispatchRecord`: the answer of the engine settles the matter. -/
def dispatchRecord (v : View) (owned : Bool) (d : PolledRecord) :
    WorkPhase → WorkEvent → WorkPhase × List Effect :=
  dispatchWork false v owned d

/-- What the loop does about an error of a record: it goes on if the partition
    has been taken away, and returns otherwise, which stops the runner. -/
def giveUp (v : View) (c : GoConsumer) (d : PolledRecord) : GoConsumer × List Effect :=
  if decide (d.owner ∈ c.member.ended) && !v.stopping then
    ({ c with loop := .polling }, [])
  else ({ c with loop := .returned }, [.stop])

def step (v : View) (c : GoConsumer) : GoEvent → GoConsumer × List Effect
  | .assigned tp => ({ c with member := c.member.assigned tp (v.committed tp) }, [])
  | .revoked tp => ({ c with member := c.member.revoked tp }, [])
  | .polled tp =>
    match c.loop, c.member.next v.log tp with
    | .polling, some (assignment, message) =>
      let offset := c.member.position tp
      let member := c.member.seek tp (offset + 1)
      -- rebalances are blocked between the poll and `owners.get`
      match c.member.owners tp with
      | none => ({ c with member := member }, [])
      | some owner =>
        let d : PolledRecord := ⟨tp, offset, message, owner, assignment⟩
        ({ c with member := member.deliver d, loop := .dispatching d .received }, [])
    | _, _ => (c, [])
  | .work e =>
    match c.loop with
    | .dispatching d phase =>
      let r := dispatchRecord v (v.owned c.member d) d phase e
      ({ c with loop := .dispatching d r.1 }, r.2)
    | _ => (c, [])
  | .proceed outcome =>
    match c.loop with
    | .dispatching d .failed => c.giveUp v d
    | .dispatching d .acknowledged =>
      -- `ownership.commit`: the check and the commit are under the mutex
      if c.member.owners d.partition ≠ some d.owner || !v.owned c.member d then c.giveUp v d
      else if outcome.ok then ({ c with loop := .polling }, outcome.effects d)
      else
        let r := c.giveUp v d
        (r.1, outcome.effects d ++ r.2)
    | _ => (c, [])
  | .exit =>
    match c.loop with
    | .polling => if v.stopping then ({ c with loop := .returned }, []) else (c, [])
    | _ => (c, [])

end GoConsumer

end Rochallor
