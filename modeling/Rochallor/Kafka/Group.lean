import Rochallor.Kafka.GoRunner
import Rochallor.Kafka.JavaRunner
import Rochallor.Kafka.NodeRunner

/-! # A consumer group

    Any number of runners, of any of the three languages, around one broker.
    A runner has one consumer for each job type; they share its dedup cache and
    its stop flag.  The system is a state machine whose inputs are the events
    of the consumers and of their surroundings, in any order.
-/

namespace Rochallor

/-- The consumer of one job type, in one of the three languages. -/
inductive Consumer where
  | go (c : GoConsumer)
  | java (c : JavaConsumer)
  | node (c : NodeConsumer)

inductive ConsumerEvent where
  | go (e : GoEvent)
  | java (e : JavaEvent)
  | node (e : NodeEvent)

namespace Consumer

/-- What the clients of the three languages have in common. -/
def member : Consumer → Membership
  | go c => c.member
  | java c => c.member
  | node c => c.member

/-- A new process of the same language. -/
def restarted : Consumer → Consumer
  | go _ => go {}
  | java _ => java {}
  | node _ => node {}

def step (v : View) : Consumer → ConsumerEvent → Consumer × List Effect
  | go c, .go e => (go (c.step v e).1, (c.step v e).2)
  | java c, .java e => (java (c.step v e).1, (c.step v e).2)
  | node c, .node e => (node (c.step v e).1, (c.step v e).2)
  | c, _ => (c, [])

end Consumer

/-- One process. -/
structure Runner where
  stopping : Bool := false
  dedup : List Nat := []
  consumers : Nat → Consumer

/-- The broker and the runners.  `records` are all records in the order the
    broker stored them; `confirmed` lists the records whose callback the engine
    has confirmed. -/
structure Group where
  records : List (TopicPartition × Message) := []
  committed : TopicPartition → Nat := fun _ => 0
  confirmed : List (TopicPartition × Nat) := []
  runners : Nat → Runner

inductive GroupEvent where
  /-- A record is produced. -/
  | append (tp : TopicPartition) (message : Message)
  | consumer (runner index : Nat) (e : ConsumerEvent)
  /-- A dedup id expires. -/
  | forget (runner id : Nat)
  /-- `stop()`, `close()`, or the cancellation of the context of `Run`. -/
  | shutdown (runner : Nat)
  /-- The process dies and another one takes its place. -/
  | restart (runner : Nat)

namespace Group

/-- The records of each partition. -/
def log (g : Group) : PartitionLog := fun tp =>
  (g.records.filter fun r => decide (r.1 = tp)).map (·.2)

def setRunner (g : Group) (runner : Nat) (r : Runner) : Group :=
  { g with runners := Function.update g.runners runner r }

def view (g : Group) (runner : Nat) : View where
  log := g.log
  committed := g.committed
  stopping := (g.runners runner).stopping
  dedup := (g.runners runner).dedup

/-- What an effect of a consumer of the runner does. -/
def effect (runner : Nat) (g : Group) : Effect → Group
  | .confirm tp offset => { g with confirmed := (tp, offset) :: g.confirmed }
  | .mark id =>
    let r := g.runners runner
    g.setRunner runner { r with dedup := id :: r.dedup }
  | .stop => g.setRunner runner { g.runners runner with stopping := true }
  | .commit _ _ => g
  | .stored tp offset => { g with committed := Function.update g.committed tp offset }

/-- What a consumer does on an event. -/
def react (g : Group) (runner index : Nat) (e : ConsumerEvent) : Consumer × List Effect :=
  ((g.runners runner).consumers index).step (g.view runner) e

def setConsumer (g : Group) (runner index : Nat) (c : Consumer) : Group :=
  let r := g.runners runner
  g.setRunner runner { r with consumers := Function.update r.consumers index c }

def step (g : Group) : GroupEvent → Group
  | .append tp message => { g with records := g.records ++ [(tp, message)] }
  | .consumer runner index e =>
    let r := g.react runner index e
    r.2.foldl (effect runner) (g.setConsumer runner index r.1)
  | .forget runner id =>
    let r := g.runners runner
    g.setRunner runner { r with dedup := r.dedup.filter fun i => decide (i ≠ id) }
  | .shutdown runner => g.setRunner runner { g.runners runner with stopping := true }
  | .restart runner =>
    g.setRunner runner
      { consumers := fun index => ((g.runners runner).consumers index).restarted }

/-- The commits an event makes: runner, consumer, partition and the offset of
    the record. -/
def commits (g : Group) : GroupEvent → List (Nat × Nat × TopicPartition × Nat)
  | .consumer runner index e =>
    (g.react runner index e).2.filterMap fun
      | .commit tp offset => some (runner, index, tp, offset)
      | _ => none
  | _ => []

/-- New processes around an empty broker. -/
def init (consumers : Nat → Nat → Consumer) : Group where
  runners runner := { consumers := fun index => (consumers runner index).restarted }

end Group

end Rochallor
