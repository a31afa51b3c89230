import Mathlib.Logic.Function.Basic
import Rochallor.Framework.Run
import Rochallor.Framework.SessionLock

/-! # Leader election of the relays

    `advisory_lock.go` and `runtime.go`: the replicas of the engine compete for
    a session-scoped advisory lock, and the replica that gets it runs a relay
    for as long as it believes in its lock.  The election goroutine of a
    replica is cut at each round trip to Postgres and where it waits for the
    relay; other replicas, relays and Postgres go on in between.

    A client that closes its connection does not end the session at once:
    Postgres may notice much later.
-/

namespace Rochallor

/-- Where the election goroutine or `Runtime.Stop` stands. -/
inductive ElectionPhase where
  /-- The runtime has not been started, or has been stopped. -/
  | down
  /-- At the head of the loop of `run`. -/
  | loop
  /-- `pg_try_advisory_lock` has been executed and its answer is under way. -/
  | asked (got : Bool)
  /-- `onLeaderLost` waits for the relay. -/
  | lost
  /-- `leaderElection.Stop` has unlocked, and its `onLeaderLost` waits. -/
  | released
  /-- `Runtime.Stop` waits for the relay. -/
  | closing
  deriving DecidableEq, Repr

/-- The `Runtime` of a replica, with its `leaderElection`. -/
structure Replica where
  phase : ElectionPhase := .down
  /-- `rootCancel` has been called. -/
  rootCancelled : Bool := false
  /-- The session of the dedicated connection. -/
  conn : Option Nat := none
  isLeader : Bool := false
  /-- `leaderCtx`, by the number of the tenure. -/
  leaderCtx : Option Nat := none
  /-- The relay goroutines, by the tenure each was started for. -/
  relays : List Nat := []
  tenures : Nat := 0
  deriving DecidableEq

namespace Replica

/-- `onLeader`, after the lock has been acquired. -/
def onLeader (r : Replica) : Replica :=
  match r.leaderCtx with
  | some _ => r
  | none =>
    { r with leaderCtx := some r.tenures, relays := r.relays ++ [r.tenures],
             tenures := r.tenures + 1 }

/-- `leaderCancel` and the reset of the tenure in `onLeaderLost`. -/
def onLeaderLost (r : Replica) : Replica :=
  { r with leaderCtx := none }

/-- The context of the relay goroutine of a tenure has been cancelled. -/
def cancelled (r : Replica) (tenure : Nat) : Bool :=
  r.rootCancelled || decide (r.leaderCtx ≠ some tenure)

/-- A relay may begin another cycle. -/
def publishes (r : Replica) : Bool :=
  r.relays.any fun tenure => !r.cancelled tenure

end Replica

/-- The replicas and their Postgres. -/
structure Cluster where
  pg : SessionLock := {}
  replica : Nat → Replica := fun _ => {}

inductive ElectionEvent where
  /-- `Runtime.Start`. -/
  | start (i : Nat)
  /-- `tryAcquire` gets a connection. -/
  | acquire (i : Nat)
  /-- Postgres executes `pg_try_advisory_lock`. -/
  | tryLock (i : Nat)
  /-- The answer arrives, or the query fails. -/
  | answer (i : Nat) (ok : Bool)
  /-- `pingLockConn`. -/
  | ping (i : Nat) (ok : Bool)
  /-- The relay goroutine of a tenure finds its context cancelled. -/
  | relayReturns (i tenure : Nat)
  /-- `relayWG.Wait` of `onLeaderLost` returns. -/
  | drained (i : Nat)
  /-- `Runtime.Stop` is called. -/
  | stop (i : Nat)
  /-- The election goroutine has ended, and `leaderElection.Stop` unlocks. -/
  | release (i : Nat) (ok : Bool)
  /-- `Runtime.Stop` returns. -/
  | stopped (i : Nat)
  /-- The process dies. -/
  | crash (i : Nat)
  /-- A session ends. -/
  | sessionEnds (c : Nat)

namespace Cluster

/-- A replica goes on, by itself. -/
def goes (s : Cluster) (i : Nat) (r : Replica) : Cluster :=
  { s with replica := Function.update s.replica i r }

/-- The session of the replica is still there. -/
def connected (s : Cluster) (i : Nat) : Bool :=
  (s.replica i).conn.any fun c => decide (c ∈ s.pg.live)

/-- The first half of `tryAcquire`. -/
def acquire (s : Cluster) (i : Nat) : Cluster :=
  let r := s.replica i
  if r.phase = .loop ∧ r.isLeader = false ∧ r.conn = none then
    { s.goes i { r with conn := some s.pg.next } with pg := s.pg.connect }
  else s

/-- The query of `tryAcquire`.  A dead connection is closed. -/
def tryLock (s : Cluster) (i : Nat) : Cluster :=
  let r := s.replica i
  if r.phase = .loop ∧ r.isLeader = false then
    match r.conn with
    | none => s
    | some c =>
      if c ∈ s.pg.live then
        { s.goes i { r with phase := .asked (s.pg.grants c) } with pg := s.pg.tryLock c }
      else s.goes i { r with conn := none }
  else s

/-- The second half of `tryAcquire`, and `onLeader` if the lock was granted. -/
def answer (s : Cluster) (i : Nat) (ok : Bool) : Cluster :=
  let r := s.replica i
  match r.phase with
  | .asked got =>
    if !ok then s.goes i { r with phase := .loop, conn := none }
    else if got then s.goes i { r with phase := .loop, isLeader := true }.onLeader
    else s.goes i { r with phase := .loop }
  | _ => s

/-- A leader checks its session.  A ping may fail without a reason. -/
def ping (s : Cluster) (i : Nat) (ok : Bool) : Cluster :=
  let r := s.replica i
  if r.phase = .loop ∧ r.isLeader = true then
    if ok && s.connected i then s
    else s.goes i { r with phase := .lost, isLeader := false, conn := none }.onLeaderLost
  else s

def relayReturns (s : Cluster) (i tenure : Nat) : Cluster :=
  let r := s.replica i
  if r.cancelled tenure then
    s.goes i { r with relays := r.relays.filter fun k => decide (k ≠ tenure) }
  else s

def drained (s : Cluster) (i : Nat) : Cluster :=
  let r := s.replica i
  if r.relays = [] then
    match r.phase with
    | .lost => s.goes i { r with phase := .loop }
    | .released => s.goes i { r with phase := .closing, conn := none }
    | _ => s
  else s

/-- `leaderElection.Stop`, up to the wait for the relay.  The unlock may fail. -/
def release (s : Cluster) (i : Nat) (ok : Bool) : Cluster :=
  let r := s.replica i
  if r.phase = .loop ∧ r.rootCancelled = true then
    match r.conn with
    | none => s.goes i { r with phase := .closing }
    | some c =>
      if r.isLeader then
        { s.goes i { r with phase := .released, isLeader := false }.onLeaderLost with
          pg := if ok then s.pg.unlock c else s.pg }
      else s.goes i { r with phase := .closing, conn := none }
  else s

/-- One event.  An event that cannot happen in the state changes nothing. -/
def step (s : Cluster) : ElectionEvent → Cluster
  | .start i =>
    let r := s.replica i
    if r.phase = .down then
      s.goes i { r with phase := .loop, rootCancelled := false, conn := none, isLeader := false }
    else s
  | .acquire i => s.acquire i
  | .tryLock i => s.tryLock i
  | .answer i ok => s.answer i ok
  | .ping i ok => s.ping i ok
  | .relayReturns i tenure => s.relayReturns i tenure
  | .drained i => s.drained i
  | .stop i =>
    let r := s.replica i
    if r.phase = .down then s else s.goes i { r with rootCancelled := true }
  | .release i ok => s.release i ok
  | .stopped i =>
    let r := s.replica i
    if r.phase = .closing ∧ r.relays = [] then s.goes i { r with phase := .down } else s
  | .crash i => s.goes i {}
  | .sessionEnds c => { s with pg := s.pg.hangUp c }

/-- The cluster after the events, from nothing. -/
def run (events : List ElectionEvent) : Cluster :=
  Run.after step {} events

end Cluster

end Rochallor
