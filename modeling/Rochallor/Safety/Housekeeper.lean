import Rochallor.Safety.Timers

/-! # The housekeeper

    `DeleteObsoleteBoundaryEvents` takes no lock and may run between any two
    calls.  Only `FireBoundaryEvent` reads the schedule, and a row the
    housekeeper removes cannot dispatch any more, so a run makes the same
    dispatches without it: the engine commutes with hiding the removed rows.
-/

namespace Rochallor

/-! ## Hiding schedule rows -/

/-- The tables without the schedule rows of these ids. -/
@[simps] def Db.hide (gone : List Nat) (db : Db) : Db :=
  { db with boundaryEvents := db.boundaryEvents.filter fun r => !gone.contains r.id }

@[simps] def Tx.hide (gone : List Nat) (tx : Tx) : Tx :=
  { tx with db := tx.db.hide gone }

def Plan.hide (gone : List Nat) : Plan → Plan
  | .commit db reply => .commit (db.hide gone) reply
  | .dispatch d tx steps => .dispatch d (tx.hide gone) steps
  | .chain d tx steps source => .chain d (tx.hide gone) steps source

/-- What a handler returns, with the rows hidden. -/
def hideStep (gone : List Nat) (r : Tx × List StepId) : Tx × List StepId :=
  (r.1.hide gone, r.2)

/-! ## The engine commutes with hiding -/

section Bind

variable {ε α α' β β' : Type} {ψ : β → β'}

/-- Equal computations with matching continuations. -/
theorem bind_same {x : Except ε α} {f : α → Except ε β'} {g : α → Except ε β}
    (h : ∀ a, f a = (g a).map ψ) : (x >>= f) = (x >>= g).map ψ := by
  cases x with
  | error e => rfl
  | ok a => exact h a

/-- Matching computations with matching continuations. -/
theorem bind_map {x : Except ε α} {φ : α → α'} {f : α' → Except ε β'} {g : α → Except ε β}
    (h : ∀ a, f (φ a) = (g a).map ψ) : (x.map φ >>= f) = (x >>= g).map ψ := by
  cases x with
  | error e => rfl
  | ok a => exact h a

end Bind

section Handlers

variable (svc : Service) (now : Time) (d : WorkflowDefinition) (gone : List Nat) (tx : Tx)
  (step : WorkflowStep) (db : Db)

theorem updateInstanceVariablesPartial_hide (instanceID : Nat) (patch : GoMap Value) :
    (db.hide gone).updateInstanceVariablesPartial instanceID patch =
      (db.updateInstanceVariablesPartial instanceID patch).map (Db.hide gone) := by
  unfold Db.updateInstanceVariablesPartial
  repeat' split
  all_goals rfl

/-- New rows have new ids, so they are not hidden. -/
theorem scheduleBoundaryEvents_hide {gone : List Nat} {instanceID seID : Nat}
    {events : List BoundaryEvent} {db : Db} (h : ∀ id ∈ gone, id < db.nextId) :
    scheduleBoundaryEvents now instanceID seID events (db.hide gone) =
      (scheduleBoundaryEvents now instanceID seID events db).map (Db.hide gone) := by
  induction events generalizing db with
  | nil => rfl
  | cons be rest ih =>
    rw [scheduleBoundaryEvents, scheduleBoundaryEvents]
    split
    · cases parseDuration be.duration with
      | error e => rfl
      | ok dur =>
        have hfresh : db.nextId ∉ gone := fun hmem => Nat.lt_irrefl _ (h _ hmem)
        have hins : (db.hide gone).insertBoundaryEventSchedule instanceID seID be.targetStepId
            (now + dur) be.interrupting = (db.insertBoundaryEventSchedule instanceID seID
              be.targetStepId (now + dur) be.interrupting).hide gone := by
          simp [Db.hide, Db.insertBoundaryEventSchedule, hfresh]
        simp only [hins]
        exact ih fun id hid => Nat.lt_succ_of_lt (h id hid)
    · exact ih h

theorem enqueue_hide (job : DispatchJob) :
    enqueue svc.dispatcher (db.hide gone) job = (enqueue svc.dispatcher db job).hide gone := by
  unfold enqueue
  split <;> rfl

theorem handleServiceTask_hide {gone : List Nat} {tx : Tx} (h : ∀ id ∈ gone, id < tx.db.nextId)
    (seID : Nat) : handleServiceTask svc now (tx.hide gone) step seID =
      (handleServiceTask svc now tx step seID).map (hideStep gone) := by
  unfold handleServiceTask
  have hjob : (tx.db.hide gone).insertJob now tx.inst.id seID (jobTypeOf step) step.retryCount
      tx.inst.vars = (tx.db.insertJob now tx.inst.id seID (jobTypeOf step) step.retryCount
        tx.inst.vars).hide gone := rfl
  simp only [Tx.hide_inst, Tx.hide_db, Db.hide_nextId, hjob]
  rw [enqueue_hide, scheduleBoundaryEvents_hide now]
  · exact bind_map fun _ => rfl
  · intro id hid
    refine Nat.lt_of_lt_of_le ?_ (nextId_le_enqueue ..)
    exact Nat.lt_succ_of_lt (h id hid)

theorem handleUserTask_hide {gone : List Nat} {tx : Tx} (h : ∀ id ∈ gone, id < tx.db.nextId)
    (seID : Nat) : handleUserTask now (tx.hide gone) step seID =
      (handleUserTask now tx step seID).map (hideStep gone) := by
  unfold handleUserTask
  have htask : (markWaiting ⟨(tx.hide gone).db.insertUserTask tx.inst.id seID step.id tx.inst.vars,
      tx.inst⟩).db = (markWaiting ⟨tx.db.insertUserTask tx.inst.id seID step.id tx.inst.vars,
        tx.inst⟩).db.hide gone := rfl
  simp only [Tx.hide_inst, htask]
  rw [scheduleBoundaryEvents_hide now fun id hid => Nat.lt_succ_of_lt (h id hid)]
  exact bind_map fun _ => rfl

theorem handleWait_hide {gone : List Nat} {tx : Tx} (h : ∀ id ∈ gone, id < tx.db.nextId)
    (seID : Nat) : handleWait now (tx.hide gone) step seID =
      (handleWait now tx step seID).map (hideStep gone) := by
  unfold handleWait
  have hwait : (markWaiting (tx.hide gone)).db = (markWaiting tx).db.hide gone := rfl
  have hlt : ∀ id ∈ gone, id < (markWaiting tx).db.nextId := h
  simp only [hwait]
  rw [scheduleBoundaryEvents_hide now hlt]
  exact bind_map fun _ => rfl

theorem handleDecision_hide : handleDecision svc now (tx.hide gone) step =
    (handleDecision svc now tx step).map (hideStep gone) := by
  unfold handleDecision
  simp only [Tx.hide_inst]
  repeat' split
  all_goals rfl

theorem handleTransformation_hide (seID : Nat) :
    handleTransformation svc now (tx.hide gone) step seID =
      (handleTransformation svc now tx step seID).map (hideStep gone) := by
  unfold handleTransformation
  simp only [Tx.hide_inst, Tx.hide_db, updateInstanceVariablesPartial_hide]
  repeat' split
  all_goals first | rfl | exact bind_map fun _ => rfl

theorem handleDecisionTable_hide : handleDecisionTable svc now (tx.hide gone) step =
    (handleDecisionTable svc now tx step).map (hideStep gone) := by
  unfold handleDecisionTable
  simp only [Tx.hide_inst, Tx.hide_db, updateInstanceVariablesPartial_hide]
  repeat' split
  all_goals first | rfl | exact bind_map fun _ => rfl

theorem handleJoinGateway_hide (seID : Nat) :
    handleJoinGateway now d (tx.hide gone) step seID =
      (handleJoinGateway now d tx step seID).map (hideStep gone) := by
  unfold handleJoinGateway
  split
  · rfl
  · have hcount : ∀ leafs, (tx.hide gone).db.countCompletedBranchLeafs tx.inst.id leafs =
        tx.db.countCompletedBranchLeafs tx.inst.id leafs := fun _ => rfl
    simp only [Tx.hide_inst, hcount]
    split <;> rfl

theorem handleEnd_hide (seID : Nat) : handleEnd now d (tx.hide gone) step seID =
    (handleEnd now d tx step seID).map (hideStep gone) := by
  unfold handleEnd
  simp only [Tx.hide_inst]
  split <;> rfl

/-- A dispatch does not read the schedule, and adds rows under new ids. -/
theorem dispatchStep_hide {gone : List Nat} {tx : Tx} (h : ∀ id ∈ gone, id < tx.db.nextId)
    (stepID : StepId) : dispatchStep svc now d (tx.hide gone) stepID =
      (dispatchStep svc now d tx stepID).map (hideStep gone) := by
  unfold dispatchStep
  cases findStep d stepID with
  | none => rfl
  | some step =>
    have henter : enterStep (tx.hide gone) step stepID = (enterStep tx step stepID).hide gone := rfl
    have hnext : ∀ id ∈ gone, id < (enterStep tx step stepID).db.nextId :=
      fun id hid => Nat.lt_succ_of_lt (h id hid)
    simp only [henter, Tx.hide_db, Db.hide_nextId]
    unfold routeStep
    split
    · exact handleServiceTask_hide svc now step hnext _
    · exact handleUserTask_hide now step hnext _
    · exact handleDecision_hide ..
    · exact handleTransformation_hide ..
    · exact handleWait_hide now step hnext _
    · rfl
    · exact handleJoinGateway_hide ..
    · exact handleEnd_hide ..
    · exact handleDecisionTable_hide ..
    · rfl

end Handlers

section Operations

variable (svc : Service) (now : Time) (gone : List Nat) (db : Db)

theorem startInTx_hide (d : WorkflowDefinition) (vars : Json) (businessKey : String) :
    startInTx (db.hide gone) d vars businessKey =
      (startInTx db d vars businessKey).map (hideStep gone) := by
  have hins : ∀ inst, (db.hide gone).insertInstance inst =
      (db.insertInstance inst).map (Db.hide gone) := by
    intro inst
    have htaken : ∀ self id key, (db.hide gone).businessKeyTaken self id key =
        db.businessKeyTaken self id key := fun _ _ _ => rfl
    unfold Db.insertInstance
    rw [htaken]
    split <;> rfl
  unfold startInTx
  have hnew : ∀ id v status ids vars key, (db.hide gone).newInstance id v status ids vars key =
      db.newInstance id v status ids vars key := fun _ _ _ _ _ _ => rfl
  simp only [hnew, hins]
  exact bind_map fun _ => rfl

theorem mergeIntoInstance_hide (inst : WorkflowInstance) (delta : GoMap Value) (label : String) :
    mergeIntoInstance (db.hide gone) inst delta label =
      (mergeIntoInstance db inst delta label).map (Tx.hide gone) := by
  unfold mergeIntoInstance
  refine bind_same fun merged => ?_
  rw [updateInstanceVariablesPartial_hide]
  exact bind_map fun _ => rfl

private theorem merge_unless_empty_hide (inst : WorkflowInstance) (delta : GoMap Value)
    (label : String) :
    (if delta.isEmpty then pure { db := db.hide gone, inst := inst }
      else mergeIntoInstance (db.hide gone) inst delta label : Except EngineError Tx) =
    (if delta.isEmpty then pure { db := db, inst := inst }
      else mergeIntoInstance db inst delta label : Except EngineError Tx).map (Tx.hide gone) := by
  split
  · rfl
  · exact mergeIntoInstance_hide ..

theorem advancePastStep_hide (d : WorkflowDefinition) (tx : Tx) (step : WorkflowStep) :
    advancePastStep svc now d (tx.hide gone) step =
      hideStep gone (advancePastStep svc now d tx step) := by
  unfold advancePastStep
  simp only [Tx.hide_inst]
  repeat' split
  all_goals rfl

theorem completeJobAndAdvance_hide (jobID : Nat) (workerID : String) (vars : GoMap Value) :
    completeJobAndAdvance svc now (db.hide gone) jobID workerID vars =
      (completeJobAndAdvance svc now db jobID workerID vars).map (Plan.hide gone) := by
  unfold completeJobAndAdvance
  refine bind_same fun job => bind_same fun se => bind_same fun peeked => bind_same fun d =>
    bind_same fun completedStep => bind_same fun state => ?_
  split
  · rfl
  simp only
  split
  · rfl
  refine bind_same fun inst => ?_
  split
  · rfl
  have hclose : closeJob now (db.hide gone) jobID se.id workerID vars =
    (closeJob now db jobID se.id workerID vars).hide gone := rfl
  rw [hclose, merge_unless_empty_hide]
  refine bind_map fun tx => ?_
  split
  · rfl
  · rw [advancePastStep_hide]
    rfl

theorem completeUserTaskAndAdvance_hide (instanceID : Nat) (stepID : StepId) (vars : GoMap Value) :
    completeUserTaskAndAdvance svc now (db.hide gone) instanceID stepID vars =
      (completeUserTaskAndAdvance svc now db instanceID stepID vars).map (Plan.hide gone) := by
  unfold completeUserTaskAndAdvance
  refine bind_same fun peeked => bind_same fun d => bind_same fun step => ?_
  simp only
  split
  · rfl
  refine bind_same fun inst => ?_
  split
  · rfl
  refine bind_same fun merged => bind_same fun result => ?_
  have hrows : ((db.hide gone).completeUserTask now instanceID stepID result).2 =
    (db.completeUserTask now instanceID stepID result).2 := rfl
  simp only [hrows]
  split
  · rfl
  have hclose : ((db.hide gone).completeUserTask now instanceID stepID result).1 =
    (db.completeUserTask now instanceID stepID result).1.hide gone := rfl
  have hstep : ∀ db : Db, ((db.hide gone).completeStepExecutionByStep now instanceID stepID merged).1 =
    (db.completeStepExecutionByStep now instanceID stepID merged).1.hide gone := fun _ => rfl
  simp only [hclose, hstep, updateInstanceVariablesPartial_hide]
  refine bind_map fun db => ?_
  have htx : (⟨db.hide gone, { inst with vars := merged }⟩ : Tx) =
    Tx.hide gone ⟨db, { inst with vars := merged }⟩ := rfl
  simp only [htx, advancePastStep_hide]
  rfl

theorem signalWaitAndAdvance_hide (instanceID : Nat) (stepID : StepId) (vars : GoMap Value) :
    signalWaitAndAdvance svc now (db.hide gone) instanceID stepID vars =
      (signalWaitAndAdvance svc now db instanceID stepID vars).map (Plan.hide gone) := by
  unfold signalWaitAndAdvance
  refine bind_same fun peeked => bind_same fun d => bind_same fun step => ?_
  simp only
  split
  · rfl
  refine bind_same fun inst => ?_
  split
  · rfl
  split
  · rfl
  refine bind_same fun merged => ?_
  have hrows : ((db.hide gone).completeStepExecutionByStep now instanceID stepID merged).2 =
    (db.completeStepExecutionByStep now instanceID stepID merged).2 := rfl
  simp only [hrows]
  split
  · rfl
  have hstep : ((db.hide gone).completeStepExecutionByStep now instanceID stepID merged).1 =
    (db.completeStepExecutionByStep now instanceID stepID merged).1.hide gone := rfl
  simp only [hstep, updateInstanceVariablesPartial_hide]
  refine bind_map fun db => ?_
  have htx : (⟨db.hide gone, { inst with vars := merged }⟩ : Tx) =
    Tx.hide gone ⟨db, { inst with vars := merged }⟩ := rfl
  simp only [htx, advancePastStep_hide]
  rfl

theorem enqueueReplacement_hide (j : DispatchJob) :
    enqueueReplacement svc now (db.hide gone) j = (enqueueReplacement svc now db j).hide gone := by
  unfold enqueueReplacement
  exact enqueue_hide svc gone (db.insertJob now j.instanceID j.stepExecutionID j.jobType
    j.retriesRemaining j.payload) _

theorem failJob_hide (jobID : Nat) (workerID errorMessage : String) (retryable : Bool) :
    failJob svc now (db.hide gone) jobID workerID errorMessage retryable =
      (failJob svc now db jobID workerID errorMessage retryable).map (Plan.hide gone) := by
  unfold failJob
  refine bind_same fun state => ?_
  split
  · rfl
  refine bind_same fun j => ?_
  simp only
  split
  · have hfail : (db.hide gone).markJobFailed jobID workerID =
      (db.markJobFailed jobID workerID).hide gone := rfl
    rw [hfail, enqueueReplacement_hide]
    rfl
  · rfl

theorem retryJob_hide (jobID : Nat) (expiredOnly : Bool) :
    retryJob svc now (db.hide gone) jobID expiredOnly =
      (retryJob svc now db jobID expiredOnly).map (Plan.hide gone) := by
  unfold retryJob
  refine bind_same fun state => ?_
  split
  · rfl
  simp only
  refine bind_same fun j => ?_
  have hcancel : (db.hide gone).cancelLockedJob jobID = (db.cancelLockedJob jobID).hide gone := rfl
  rw [hcancel, enqueueReplacement_hide]
  rfl

theorem extendLease_hide (later : Time) (jobID : Nat) (workerID : String) (seconds : Int) :
    extendLease now later (db.hide gone) jobID workerID seconds =
      (extendLease now later db jobID workerID seconds).map (Plan.hide gone) := by
  have hlease : ∀ lease, extendJobLease now later (db.hide gone) jobID workerID lease =
      (extendJobLease now later db jobID workerID lease).map (Db.hide gone) := by
    intro lease
    have hlock : lockJobExecution now (db.hide gone) jobID = lockJobExecution now db jobID := rfl
    unfold extendJobLease
    simp only [hlock, Db.hide_jobs]
    repeat' split
    all_goals rfl
  unfold extendLease
  simp only
  split
  · rfl
  refine bind_same fun lease => ?_
  rw [hlease]
  cases extendJobLease now later db jobID workerID lease with
  | none => rfl
  | some db => rfl

theorem pollWithLease_hide (workerID : String) (jobTypes : List String) (max : Nat)
    (seconds : Int) (rowLocked : List Nat) :
    pollWithLease now (db.hide gone) workerID jobTypes max seconds rowLocked =
      (pollWithLease now db workerID jobTypes max seconds rowLocked).map
        fun r => (r.1, r.2.hide gone) := by
  unfold pollWithLease
  refine bind_same fun lease => ?_
  have hpoll : (db.hide gone).pollJobs now workerID jobTypes max lease rowLocked =
      ((db.pollJobs now workerID jobTypes max lease rowLocked).1,
        (db.pollJobs now workerID jobTypes max lease rowLocked).2.hide gone) := by
    unfold Db.pollJobs
    split <;> rfl
  rw [hpoll]
  rfl

theorem cancelInstance_hide (instanceID : Nat) (reason : String) :
    (db.hide gone).cancelInstance now instanceID reason =
      (db.cancelInstance now instanceID reason).map (Db.hide gone) := by
  have hget : (db.hide gone).getInstance instanceID = db.getInstance instanceID := rfl
  unfold Db.cancelInstance
  rw [hget]
  repeat' split
  all_goals rfl

theorem retryFailedStep_hide (instanceID : Nat) (stepID : StepId) (patch : GoMap Value) :
    retryFailedStep svc (db.hide gone) instanceID stepID patch =
      (retryFailedStep svc db instanceID stepID patch).map (Plan.hide gone) := by
  have hactive : ∀ inst, (db.hide gone).reactivateInstance inst =
      (db.reactivateInstance inst).map (Db.hide gone) := by
    intro inst
    have htaken : ∀ self id key, (db.hide gone).businessKeyTaken self id key =
        db.businessKeyTaken self id key := fun _ _ _ => rfl
    unfold Db.reactivateInstance
    rw [htaken]
    split <;> rfl
  unfold retryFailedStep
  simp only
  split
  · rfl
  refine bind_same fun peeked => bind_same fun d => bind_same fun _ => bind_same fun inst => ?_
  split
  · rfl
  refine bind_same fun latest => ?_
  split
  · rfl
  rw [hactive]
  refine bind_map fun db => ?_
  simp only [merge_unless_empty_hide]
  exact bind_map fun _ => rfl

theorem start_hide (definitionID : String) (version : Int) (vars : GoMap Value)
    (businessKey : String) :
    start svc now (db.hide gone) definitionID version vars businessKey =
      (start svc now db definitionID version vars businessKey).map (Plan.hide gone) := by
  unfold start
  refine bind_same fun ⟨d, json⟩ => ?_
  simp only
  rw [startInTx_hide]
  exact bind_map fun _ => rfl

theorem startChainedWorkflow_hide (source : Nat) :
    startChainedWorkflow svc now (db.hide gone) source =
      (startChainedWorkflow svc now db source).map (Plan.hide gone) := by
  unfold startChainedWorkflow
  refine bind_same fun request => bind_same fun vars => bind_same fun ⟨d, json⟩ => ?_
  have hclaim : (db.hide gone).claimWorkflowChain source = db.claimWorkflowChain source := rfl
  simp only [hclaim]
  split
  · rfl
  · rw [startInTx_hide]
    exact bind_map fun _ => rfl

theorem markFired_hide (eventID instanceID : Nat) :
    (db.hide gone).markFired now eventID instanceID =
      (db.markFired now eventID instanceID).hide gone := by
  unfold Db.markFired Db.hide
  simp only [Db.mk.injEq, true_and, and_true]
  refine (Table.filter_update ?_).symm
  intro r
  rfl

/-- A hidden row that is due belongs to a closed step execution. -/
theorem find_hide {gone : List Nat} {db : Db} (h : Spent gone db) (eventID instanceID : Nat) :
    (db.hide gone).boundaryEvents.find? (Db.dueEvent now eventID instanceID) =
        db.boundaryEvents.find? (Db.dueEvent now eventID instanceID) ∨
      ((db.hide gone).boundaryEvents.find? (Db.dueEvent now eventID instanceID) = none ∧
        ∃ event, db.boundaryEvents.find? (Db.dueEvent now eventID instanceID) = some event ∧
          Closed db event.stepExecutionID) := by
  cases hfind : db.boundaryEvents.find? (Db.dueEvent now eventID instanceID) with
  | none =>
    left
    rw [List.find?_eq_none] at hfind ⊢
    intro r hr
    exact hfind r (List.mem_filter.mp hr).1
  | some event =>
    obtain ⟨hid, -, hunfired, -⟩ := dueEvent_iff.mp (List.find?_some hfind)
    by_cases hgone : event.id ∈ gone
    · right
      refine ⟨?_, event, rfl, ?_⟩
      · rw [List.find?_eq_none]
        intro r hr hdue
        obtain ⟨-, hkept⟩ := List.mem_filter.mp hr
        have : r.id = event.id := (dueEvent_iff.mp hdue).1.trans hid.symm
        simp [this, hgone] at hkept
      · rcases (h _ hgone).2 event (List.mem_of_find?_eq_some hfind) rfl with hf | hclosed
        · rw [hunfired] at hf
          cases hf
        · exact hclosed
    · left
      exact Table.first_filter hfind (by simpa using hgone)

/-- Firing a hidden timer changes nothing else: it would not dispatch. -/
theorem fireBoundaryEvent_hide {gone : List Nat} {db : Db} (hwf : db.WF svc)
    (h : Spent gone db) (eventID instanceID : Nat) :
    fireBoundaryEvent svc now (db.hide gone) eventID instanceID =
      (fireBoundaryEvent svc now db eventID instanceID).map (Plan.hide gone) := by
  unfold fireBoundaryEvent Db.claimDueBoundaryEvent
  refine bind_same fun peeked => bind_same fun d => bind_same fun inst => ?_
  rw [markFired_hide]
  rcases find_hide now h eventID instanceID with hsame | ⟨hnone, event, hsome, hclosed⟩
  · rw [hsame]
    cases db.boundaryEvents.find? (Db.dueEvent now eventID instanceID) with
    | none => rfl
    | some event =>
      simp only
      split
      · rfl
      refine bind_same fun se => ?_
      split
      · rfl
      split <;> rfl
  · rw [hnone, hsome]
    simp only
    split
    · rfl
    obtain ⟨se, hse, hid, hstatus⟩ := hclosed
    have hnd := hwf.shape.step_ids.nodup
    simp only [Db.shape, List.map_map] at hnd
    have hget : (db.markFired now eventID instanceID).getStepExecution event.stepExecutionID =
      some se := Table.find_eq_some hnd hse hid
    simp only [hget, orError, bind, Except.bind]
    rw [if_pos hstatus]
    rfl

/-- No other operation reads the schedule. -/
theorem plan_hide {gone : List Nat} {db : Db} {op : Op} (hwf : db.WF svc) (h : Spent gone db)
    (hkeep : ∀ retention, op ≠ .deleteObsoleteBoundaryEvents retention) :
    plan svc now (db.hide gone) op = (plan svc now db op).map (Plan.hide gone) := by
  cases op with
  | start definitionID version vars businessKey => exact start_hide ..
  | completeJob jobID workerID vars => exact completeJobAndAdvance_hide ..
  | failJob jobID workerID errorMessage retryable => exact failJob_hide ..
  | heartbeat later jobID workerID seconds => exact extendLease_hide ..
  | retryJob jobID => exact retryJob_hide ..
  | sweepLease jobID => exact retryJob_hide ..
  | poll workerID jobTypes max seconds rowLocked =>
    simp only [plan, pollWithLease_hide]
    cases pollWithLease now db workerID jobTypes max seconds rowLocked with
    | error e => rfl
    | ok r => rfl
  | completeUserTask instanceID stepID vars => exact completeUserTaskAndAdvance_hide ..
  | signalWait instanceID stepID vars => exact signalWaitAndAdvance_hide ..
  | fireBoundaryEvent eventID instanceID => exact fireBoundaryEvent_hide svc now hwf h ..
  | deleteObsoleteBoundaryEvents retention => exact absurd rfl (hkeep retention)
  | cancel instanceID reason =>
    simp only [plan, cancelInstance_hide]
    cases db.cancelInstance now instanceID reason with
    | error e => rfl
    | ok db => rfl
  | retryFailedStep instanceID stepID patch => exact retryFailedStep_hide ..
  | startChain source => exact startChainedWorkflow_hide ..

end Operations

/-! ## Runs with and without the housekeeper -/

/-- A dispatch with the schedule forgotten. -/
def Dispatch.untimed (x : Dispatch) : Dispatch :=
  { x with tx := { x.tx with db := { x.tx.db with boundaryEvents := [] } } }

section Settle

variable {svc : Service} {now : Time} {gone : List Nat}

private theorem dispatchStep_nextId {d : WorkflowDefinition} {tx tx' : Tx} {stepID : StepId}
    {next : List StepId} (h : dispatchStep svc now d tx stepID = .ok (tx', next)) :
    tx.db.nextId ≤ tx'.db.nextId := by
  obtain ⟨step, -, hdisp⟩ := dispatchStep_dispatched h
  rcases hdisp.timer_view with ⟨-, -, hn⟩ | ⟨-, _, _, -, -, -, -, hstart, hn⟩ <;>
    omega

private theorem hidden_step {d : WorkflowDefinition} (tx : Tx) (stepID : StepId) (tx' : Tx)
    (next : List StepId) (h : ∀ id ∈ gone, id < tx.db.nextId)
    (hs : dispatchStep svc now d tx stepID = .ok (tx', next)) :
    ∀ id ∈ gone, id < tx'.db.nextId :=
  fun id hid => Nat.lt_of_lt_of_le (h id hid) (dispatchStep_nextId hs)

theorem settle_hide {fuel : Nat} {p : Plan} (h : ∀ id ∈ gone, id < p.tables.nextId) :
    (p.hide gone).settle svc now fuel =
      (p.settle svc now fuel).map fun r => (r.1.hide gone, r.2) := by
  have hrun : ∀ d tx steps, (∀ id ∈ gone, id < tx.db.nextId) →
      dispatchAll svc now d fuel (tx.hide gone) steps =
        (dispatchAll svc now d fuel tx steps).map (Tx.hide gone) :=
    fun d tx steps htx => Agenda.run_map (φ := Tx.hide gone)
      (Q := fun tx => ∀ id ∈ gone, id < tx.db.nextId)
      (fun tx stepID h => dispatchStep_hide svc now d h stepID) hidden_step htx
  cases p with
  | commit db reply => rfl
  | dispatch d tx steps =>
    simp only [Plan.hide, Plan.settle, hrun d tx steps h]
    exact bind_map fun _ => rfl
  | chain d tx steps source =>
    simp only [Plan.hide, Plan.settle, hrun d tx steps h]
    exact bind_map fun _ => rfl

theorem dispatches_hide {fuel : Nat} {p : Plan} (h : ∀ id ∈ gone, id < p.tables.nextId) :
    ((p.hide gone).dispatches svc now fuel).map Dispatch.untimed =
      (p.dispatches svc now fuel).map Dispatch.untimed := by
  have htrace : ∀ d tx steps, (∀ id ∈ gone, id < tx.db.nextId) →
      Agenda.trace (dispatchStep svc now d) fuel (tx.hide gone) steps =
        (Agenda.trace (dispatchStep svc now d) fuel tx steps).map fun m =>
          ⟨m.before.hide gone, m.item, m.pending⟩ :=
    fun d tx steps htx => Agenda.trace_map (φ := Tx.hide gone)
      (Q := fun tx => ∀ id ∈ gone, id < tx.db.nextId)
      (fun tx stepID h => dispatchStep_hide svc now d h stepID) hidden_step htx
  cases p with
  | commit db reply => rfl
  | dispatch d tx steps =>
    simp only [Plan.hide, Plan.dispatches, Plan.agenda, htrace d tx steps h, List.map_map]
    rfl
  | chain d tx steps source =>
    simp only [Plan.hide, Plan.dispatches, Plan.agenda, htrace d tx steps h, List.map_map]
    rfl

end Settle

/-- `s` is `t` less some rows that cannot dispatch any more. -/
def Housekept (svc : Service) (s t : Db) : Prop :=
  t.WF svc ∧ ∃ gone, s = t.hide gone ∧ Spent gone t

/-- The housekeeper's calls. -/
def Call.housekeeps (call : Call) : Bool :=
  match call.op with
  | .deleteObsoleteBoundaryEvents _ => true
  | _ => false

section Simulation

variable {svc : Service} {s t : Db} {call : Call}

/-- Any other call does the same in both. -/
theorem Housekept.both (h : Housekept svc s t) (hother : call.housekeeps = false) :
    Housekept svc (apply svc s call) (apply svc t call) ∧
      (dispatches svc s call).map Dispatch.untimed = (dispatches svc t call).map Dispatch.untimed := by
  obtain ⟨hwf, gone, rfl, hspent⟩ := h
  have hplan : plan svc call.now (t.hide gone) call.op =
      (plan svc call.now t call.op).map (Plan.hide gone) := by
    refine plan_hide svc call.now hwf hspent ?_
    intro retention hop
    simp [Call.housekeeps, hop] at hother
  have hwf' := wf_apply hwf call
  have hspent' := spent_apply hwf hspent call
  suffices hsame : apply svc (t.hide gone) call = (apply svc t call).hide gone ∧
      (dispatches svc (t.hide gone) call).map Dispatch.untimed =
        (dispatches svc t call).map Dispatch.untimed from
    ⟨⟨hwf', gone, hsame.1, hspent'⟩, hsame.2⟩
  unfold apply perform dispatches transact
  rw [hplan]
  cases hp : plan svc call.now t call.op with
  | error e => exact ⟨rfl, rfl⟩
  | ok p =>
    have hlt : ∀ id ∈ gone, id < p.tables.nextId := fun id hid =>
      Nat.lt_of_lt_of_le (hspent id hid).1 (plan_opened hp).statuses.nextId_le
    simp only [Except.map, bind, Except.bind, settle_hide hlt]
    cases p.settle svc call.now call.fuel with
    | error e => exact ⟨rfl, rfl⟩
    | ok r => exact ⟨rfl, dispatches_hide hlt⟩

/-- Removing rows is hiding their ids. -/
private theorem hide_removed (hwf : t.WF svc) (gone : List Nat)
    (q : BoundaryEventSchedule → Bool) :
    { t.hide gone with boundaryEvents := (t.hide gone).boundaryEvents.filter fun r => !q r } =
      t.hide (gone ++ ((t.hide gone).boundaryEvents.filter q).map (·.id)) := by
  unfold Db.hide
  simp only [Db.mk.injEq, true_and, and_true, List.filter_filter]
  refine List.filter_congr fun r hr => ?_
  rw [Bool.eq_iff_iff]
  simp only [Bool.and_eq_true, Bool.not_eq_true', List.contains_eq_mem, decide_eq_false_iff_not,
    List.mem_append, not_or]
  constructor
  · rintro ⟨hq, hnot⟩
    refine ⟨hnot, fun hmem => ?_⟩
    obtain ⟨r', hr', hid⟩ := List.mem_map.mp hmem
    obtain ⟨hr', hq'⟩ := List.mem_filter.mp hr'
    obtain rfl := hwf.timer_eq hr' hr hid
    rw [Bool.and_eq_true, hq] at hq'
    cases hq'.1
  · rintro ⟨hnot, hmem⟩
    refine ⟨?_, hnot⟩
    rw [Bool.eq_false_iff]
    intro hq
    refine hmem (List.mem_map_of_mem (List.mem_filter.mpr ⟨hr, ?_⟩))
    simp [hq, hnot]

/-- The housekeeper removes rows that cannot dispatch. -/
theorem Housekept.silent (h : Housekept svc s t) (hkeep : call.housekeeps = true) :
    Housekept svc (apply svc s call) t ∧ dispatches svc s call = [] := by
  obtain ⟨hwf, gone, rfl, hspent⟩ := h
  obtain ⟨retention, hop⟩ : ∃ retention, call.op = .deleteObsoleteBoundaryEvents retention := by
    unfold Call.housekeeps at hkeep
    split at hkeep
    · exact ⟨_, by assumption⟩
    · cases hkeep
  have hp : plan svc call.now (t.hide gone) call.op =
      .ok (.commit ((t.hide gone).deleteObsoleteBoundaryEvents call.now retention) none) := by
    rw [hop]
    rfl
  have happly : apply svc (t.hide gone) call =
      (t.hide gone).deleteObsoleteBoundaryEvents call.now retention := by
    unfold apply perform transact
    rw [hp]
    rfl
  refine ⟨⟨hwf, gone ++ ((t.hide gone).boundaryEvents.filter
    ((t.hide gone).obsolete call.now retention)).map (·.id), ?_, ?_⟩, dispatches_commit hp⟩
  · rw [happly]
    exact hide_removed hwf gone _
  · intro id hid
    rcases List.mem_append.mp hid with hid | hid
    · exact hspent id hid
    · obtain ⟨r, hr, rfl⟩ := List.mem_map.mp hid
      obtain ⟨hr, hobs⟩ := List.mem_filter.mp hr
      have hmem := (List.mem_filter.mp hr).1
      refine ⟨hwf.timer_lt hmem, ?_⟩
      intro r' hr' hid'
      obtain rfl := hwf.timer_eq hr' hmem hid'
      simp only [Db.obsolete, Bool.or_eq_true, Bool.and_eq_true, List.any_eq_true,
        decide_eq_true_eq] at hobs
      rcases hobs with ⟨hf, -⟩ | ⟨-, se, hse, hseid, hclosed⟩
      · exact .inl hf
      · exact .inr ⟨se, hse, hseid, hclosed⟩

end Simulation

/-- Leaving the housekeeper out changes no dispatch. -/
theorem housekeeper_silent (svc : Service) (calls : List Call) :
    (runDispatches svc calls).map Dispatch.untimed =
      (runDispatches svc (calls.filter fun call => !call.housekeeps)).map Dispatch.untimed := by
  have h₀ : Housekept svc {} {} := ⟨wf_empty svc, [], rfl, by simp [Spent]⟩
  unfold runDispatches
  rw [Run.map_outputs, Run.map_outputs]
  refine Run.outputs_filter ?_ (fun _ _ _ h hother => h.both hother) calls h₀
  intro s t call h hkeep
  obtain ⟨hafter, hnone⟩ := h.silent hkeep
  exact ⟨hafter, by rw [hnone, List.map_nil]⟩

/-! ## Timers dispatch once -/

end Rochallor
