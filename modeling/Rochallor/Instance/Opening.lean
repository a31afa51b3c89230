import Rochallor.Engine
import Rochallor.Instance.Dispatch

/-! # What one operation does before its dispatches

    `Opened` lists everything the operations can do up to their first
    dispatch, with what each of them has checked by then.  `plan_opened` is the
    inversion lemma.
-/

namespace Rochallor

/-! ## Lookups -/

theorem orError_eq_ok {α : Type} {e : EngineError} {o : Option α} {a : α}
    (h : orError e o = .ok a) : o = some a := by
  cases o with
  | none => cases h
  | some b =>
    cases h
    rfl

theorem orMessage_eq_ok {α : Type} {label : String} {x : Except String α} {a : α}
    (h : orMessage label x = .ok a) : x = .ok a := by
  cases x with
  | error e => cases h
  | ok b =>
    cases h
    rfl

/-- The rows a job callback looks at. -/
structure Callback (db : Db) (jobID : Nat) (job : Job) (se : StepExecution)
    (inst : WorkflowInstance) : Prop where
  job_eq : db.getJob jobID = some job
  inst_eq : db.getInstance job.instanceID = some inst
  se_eq : db.getStepExecution job.stepExecutionID = some se

/-- What `lockJobExecution` returns for these rows. -/
def jobExecution (now : Time) (job : Job) (se : StepExecution) (inst : WorkflowInstance) :
    JobExecution where
  instanceStatus := inst.status
  stepStatus := se.status
  jobStatus := job.status
  workerID := job.workerID.getD ""
  leaseValid := job.lockExpiresAt.any fun t => decide (now < t)

theorem lockJobExecution_eq_ok {now : Time} {db : Db} {jobID : Nat} {state : JobExecution}
    (h : lockJobExecution now db jobID = .ok state) :
    ∃ job se inst, Callback db jobID job se inst ∧ state = jobExecution now job se inst := by
  unfold lockJobExecution at h
  obtain ⟨job, hjob, h⟩ := bind_eq_ok h
  obtain ⟨inst, hinst, h⟩ := bind_eq_ok h
  obtain ⟨se, hse, h⟩ := bind_eq_ok h
  cases h
  exact ⟨job, se, inst,
    ⟨orError_eq_ok hjob, orError_eq_ok hinst, orError_eq_ok hse⟩, rfl⟩

theorem lockJobExecution_of {now : Time} {db : Db} {jobID : Nat} {job : Job}
    {se : StepExecution} {inst : WorkflowInstance} (h : Callback db jobID job se inst) :
    lockJobExecution now db jobID = .ok (jobExecution now job se inst) := by
  unfold lockJobExecution
  rw [h.job_eq]
  simp only [orError, bind, Except.bind]
  rw [h.inst_eq, h.se_eq]
  rfl

/-- The instance and the step of the callback are alive. -/
def Alive (se : StepExecution) (inst : WorkflowInstance) : Prop :=
  inst.status.inFlight = true ∧ se.status = .running

theorem active_iff {now : Time} {job : Job} {se : StepExecution} {inst : WorkflowInstance} :
    (jobExecution now job se inst).active = true ↔ Alive se inst := by
  simp only [JobExecution.active, Bool.and_eq_true, decide_eq_true_eq]
  exact Iff.rfl

/-- An accepted callback finds the instance, the step and the job alive. -/
theorem alive_of_acceptsCallback {now : Time} {job : Job} {se : StepExecution}
    {inst : WorkflowInstance} {workerID : String}
    (h : (jobExecution now job se inst).acceptsCallback workerID = true) :
    Alive se inst ∧ job.status.live = true := by
  unfold JobExecution.acceptsCallback at h
  rw [Bool.and_eq_true, active_iff] at h
  refine ⟨h.1, ?_⟩
  rcases Bool.or_eq_true _ _ |>.mp h.2 with hs | hs
  · have : job.status = .unlocked := of_decide_eq_true hs
    simp [this, JobStatus.live]
  · have : job.status = .locked := by
      simp only [Bool.and_eq_true, decide_eq_true_eq] at hs
      exact hs.1.1
    simp [this, JobStatus.live]

/-! ## Replacements -/

/-- The row of a replacement job. -/
def replacement (now : Time) (db : Db) (j : DispatchJob) : Job where
  id := db.nextId
  instanceID := j.instanceID
  stepExecutionID := j.stepExecutionID
  jobType := j.jobType
  status := .unlocked
  retriesRemaining := j.retriesRemaining
  payload := j.payload
  createdAt := now

section Replacement

variable (svc : Service) (now : Time) (db : Db) (j : DispatchJob)

@[simp] theorem enqueueReplacement_instances :
    (enqueueReplacement svc now db j).instances = db.instances := by
  simp [enqueueReplacement]

@[simp] theorem enqueueReplacement_stepExecutions :
    (enqueueReplacement svc now db j).stepExecutions = db.stepExecutions := by
  simp [enqueueReplacement]

@[simp] theorem enqueueReplacement_jobs :
    (enqueueReplacement svc now db j).jobs = db.jobs ++ [replacement now db j] := by
  simp [enqueueReplacement, replacement]

@[simp] theorem enqueueReplacement_userTasks :
    (enqueueReplacement svc now db j).userTasks = db.userTasks := by
  simp [enqueueReplacement]

@[simp] theorem enqueueReplacement_boundaryEvents :
    (enqueueReplacement svc now db j).boundaryEvents = db.boundaryEvents := by
  simp [enqueueReplacement]

@[simp] theorem enqueueReplacement_statusWrites :
    (enqueueReplacement svc now db j).statusWrites = db.statusWrites := by
  simp [enqueueReplacement]

theorem nextId_lt_enqueueReplacement :
    db.nextId < (enqueueReplacement svc now db j).nextId := by
  unfold enqueueReplacement
  refine Nat.lt_of_lt_of_le ?_ (nextId_le_enqueue ..)
  exact Nat.lt_succ_self _

end Replacement

/-! ## Advancing -/

/-- The transaction right after `advancePastStep` has listed the remaining
    steps. -/
@[simps!] def advanced (d : WorkflowDefinition) (tx : Tx) (step : WorkflowStep) : Tx :=
  let ids := withoutStep tx.inst.currentStepIDs step.id
  let status := recomputeInstanceStatus d ids
  { db := tx.db.updateInstanceStatusAndSteps tx.inst.id status ids,
    inst := { tx.inst with currentStepIDs := ids, status := status } }

/-- The steps a completed `SERVICE_TASK`, `USER_TASK` or `WAIT` can go on to:
    its conditional branches if it has any, else its next step. -/
def WorkflowStep.successors (step : WorkflowStep) : List StepId :=
  match step.conditionalNextSteps with
  | some c => if c.exprs.isEmpty then [step.nextStep] else c.exprs.map c.target
  | none => [step.nextStep]

/-- The completion of the step goes on past it: the outputs are valid and the
    step has a successor. -/
def WorkflowStep.leaves (step : WorkflowStep) (vars : GoMap Value) : Bool :=
  (outputViolations step vars).isEmpty &&
    !(step.nextStep.isEmpty && ConditionalBranches.len step.conditionalNextSteps == 0)

/-- Whether `advancePastStep` past the step on these variables fails the
    instance, by the expressions of the step alone. -/
def advanceFails (svc : Service) (vars : Json) (step : WorkflowStep) : Bool :=
  match step.conditionalNextSteps with
  | none => false
  | some c =>
    if c.exprs.isEmpty then false
    else
      match variablesToMap vars with
      | .error _ => true
      | .ok m =>
        match chooseBranch svc m c c.exprs with
        | .ok (some _) => false
        | _ => true

/-- The variables after a worker's report: an empty one is not merged. -/
def varsAfter (vars : Json) (delta : GoMap Value) : Except String Json :=
  if delta.isEmpty then .ok vars else mergeVariables vars delta

/-- What `advancePastStep` can do. -/
inductive Advanced (now : Time) (d : WorkflowDefinition) (tx : Tx) (step : WorkflowStep) :
    Tx → List StepId → Prop
  /-- Go on to a successor. -/
  | on (target : StepId) (htarget : target ∈ step.successors)
      (hnext : ConditionalBranches.len step.conditionalNextSteps = 0 → target ≠ "") :
      Advanced now d tx step (advanced d tx step) [target]
  /-- End the local branch: there is no successor. -/
  | stop (hnext : step.nextStep = "") (hlen : ConditionalBranches.len step.conditionalNextSteps = 0) :
      Advanced now d tx step (advanced d tx step) []
  /-- Fail the instance: no branch can be chosen. -/
  | fail (reason : String) :
      Advanced now d tx step (failInstance now (advanced d tx step) step.id reason) []

theorem advancePastStep_advanced (svc : Service) (now : Time) (d : WorkflowDefinition) (tx : Tx)
    (step : WorkflowStep) :
    Advanced now d tx step (advancePastStep svc now d tx step).1
      (advancePastStep svc now d tx step).2 := by
  unfold advancePastStep
  cases hc : step.conditionalNextSteps with
  | none =>
    by_cases hn : step.nextStep.isEmpty = true
    · simp only [hn, if_true]
      exact .stop (by simpa using hn) (by simp [hc, ConditionalBranches.len])
    · simp only [hn]
      exact .on _ (by simp [WorkflowStep.successors, hc]) fun _ => by simpa using hn
  | some c =>
    by_cases he : c.exprs.isEmpty = true
    · by_cases hn : step.nextStep.isEmpty = true
      · simp only [he, hn, if_true]
        exact .stop (by simpa using hn)
          (by simpa [hc, ConditionalBranches.len] using he)
      · simp only [he, hn, if_true]
        exact .on _ (by simp [WorkflowStep.successors, hc, he]) fun _ => by simpa using hn
    · simp only [he, Bool.false_eq_true, if_false]
      split
      · exact .fail _
      · rename_i vars _
        split
        · exact .fail _
        · exact .fail _
        · rename_i target hb
          obtain ⟨e, hmem, rfl⟩ := chooseBranch_mem hb
          refine .on _ ?_ fun hlen => ?_
          · simp only [WorkflowStep.successors, hc, he]
            exact List.mem_map_of_mem hmem
          · simp [hc, ConditionalBranches.len, List.length_eq_zero_iff] at hlen
            simp [hlen] at he

theorem recomputeInstanceStatus_ne_failed (d : WorkflowDefinition) (ids : List StepId) :
    recomputeInstanceStatus d ids ≠ .failed := by
  simp only [recomputeInstanceStatus]
  split <;> simp

theorem advancePastStep_failed {svc : Service} {now : Time} {d : WorkflowDefinition} {tx : Tx}
    {step : WorkflowStep} (h : (advancePastStep svc now d tx step).1.inst.status = .failed) :
    advanceFails svc tx.inst.vars step = true := by
  have hne := recomputeInstanceStatus_ne_failed d (withoutStep tx.inst.currentStepIDs step.id)
  unfold advancePastStep at h
  unfold advanceFails
  cases hc : step.conditionalNextSteps with
  | none =>
    simp only [hc] at h
    exact absurd h hne
  | some c =>
    simp only [hc] at h
    by_cases he : c.exprs.isEmpty = true
    · simp only [he, if_true] at h
      exact absurd h hne
    · simp only [he, Bool.false_eq_true, if_false] at h ⊢
      cases hm : variablesToMap tx.inst.vars with
      | error e => rfl
      | ok m =>
        simp only [hm] at h ⊢
        cases hb : chooseBranch svc m c c.exprs with
        | error e => rfl
        | ok o =>
          cases o with
          | none => rfl
          | some target =>
            simp only [hb] at h
            exact absurd h hne

/-! ## Inversion -/

/-- The transaction of a new instance. -/
@[simps!] def startTx (db : Db) (d : WorkflowDefinition) (vars : Json) (businessKey : Option String) : Tx :=
  let inst := db.newInstance d.id d.version .active [(d.steps.map (·.id)).headD ""] vars businessKey
  { db := db.addInstance inst, inst := inst }

/-- The tables after `Cancel`. -/
@[simps!] def Db.cancelled (db : Db) (now : Time) (instanceID : Nat) (reason : String) : Db :=
  (db.updateInstance instanceID fun r =>
    { r with status := .cancelled, failureReason := some reason,
             completedAt := some now }).logStatus instanceID .cancelled .cancelInstance

/-- The tables after a failed instance is active again. -/
@[simps!] def Db.reactivated (db : Db) (instanceID : Nat) : Db :=
  (db.updateInstance instanceID fun r =>
    { r with status := .active, failureReason := none, completedAt := none }).logStatus
      instanceID .active .reactivateInstance

/-- The definition an instance runs. -/
def Runs (svc : Service) (inst : WorkflowInstance) (d : WorkflowDefinition) : Prop :=
  svc.defRepo.getVersion inst.definitionID inst.definitionVersion = .ok d

/-- The operation finds nothing to do: the callback is not accepted, the job
    not replaceable, the timer not due, or the chain request already served. -/
def Refused (now : Time) (db : Db) : Op → Prop
  | .completeJob jobID workerID _ | .failJob jobID workerID _ _ =>
    ∃ job se inst, Callback db jobID job se inst ∧
      (jobExecution now job se inst).acceptsCallback workerID = false
  | .retryJob _ | .sweepLease _ | .startChain _ => True
  | .fireBoundaryEvent eventID instanceID =>
    db.boundaryEvents.find? (Db.dueEvent now eventID instanceID) = none
  | _ => False

/-- Everything an operation can do before its dispatches. -/
inductive Opened (svc : Service) (now : Time) (db : Db) : Op → Plan → Prop
  | ignored (op : Op) (hrefused : Refused now db op) : Opened svc now db op (.commit db none)
  | started (definitionID : String) (version : Int) (vars : GoMap Value) (businessKey : String)
      (d : WorkflowDefinition) (json : Json) (key : Option String)
      (hd : svc.defRepo.getVersion d.id d.version = .ok d) (hsteps : d.steps ≠ [])
      (hkey : key = if businessKey.isEmpty then none else some businessKey)
      (hjson : (Value.obj vars).marshal = .ok json) :
      Opened svc now db (.start definitionID version vars businessKey)
        (.dispatch d (startTx db d json key) [(d.steps.map (·.id)).headD ""])
  | chainStarted (source : Nat) (d : WorkflowDefinition) (json : Json) (key : Option String)
      (hd : svc.defRepo.getVersion d.id d.version = .ok d) (hsteps : d.steps ≠ [])
      (hclaim : db.claimWorkflowChain source = true) (request : WorkflowChain)
      (hrequest : db.chains.find? (fun r => decide (r.sourceInstanceID = source)) = some request)
      (hjson : ∃ m, variablesToMap request.vars = .ok m ∧ (Value.obj m).marshal = .ok json)
      (hkey : key = if (request.businessKey.getD "").isEmpty then none
        else some (request.businessKey.getD "")) :
      Opened svc now db (.startChain source)
        (.chain d (startTx db d json key) [(d.steps.map (·.id)).headD ""] source)
  /-- A worker's outputs violate the schema. -/
  | outputsRejected (jobID : Nat) (workerID : String) (vars : GoMap Value) (job : Job)
      (se : StepExecution) (inst : WorkflowInstance) (violations : List SchemaViolation)
      (hcb : Callback db jobID job se inst)
      (hacc : (jobExecution now job se inst).acceptsCallback workerID = true)
      (d : WorkflowDefinition) (hd : Runs svc inst d) (step : WorkflowStep)
      (hstep : findStep d se.stepID = some step)
      (hviolations : (outputViolations step vars).isEmpty = false) :
      Opened svc now db (.completeJob jobID workerID vars)
        (.commit (rejectOutputs now db se.id inst.id (schemaViolationError violations))
          (some (.schemaViolation violations)))
  /-- A completed service task without a successor. -/
  | jobCompleted (jobID : Nat) (workerID : String) (vars : GoMap Value) (job : Job)
      (se : StepExecution) (inst : WorkflowInstance) (d : WorkflowDefinition)
      (step : WorkflowStep) (g : Json → Json)
      (hcb : Callback db jobID job se inst)
      (hacc : (jobExecution now job se inst).acceptsCallback workerID = true)
      (hd : Runs svc inst d) (hstep : findStep d se.stepID = some step)
      (hnext : step.nextStep = "") (json : Json) (hvars : Merged inst.vars json g)
      (hwrites : WritesOnly (vars.map (·.1)) inst.vars json g) :
      Opened svc now db (.completeJob jobID workerID vars)
        (.commit ((closeJob now db jobID se.id workerID vars).patchVars inst.id g) none)
  /-- A completed service task with a successor. -/
  | jobAdvanced (jobID : Nat) (workerID : String) (vars : GoMap Value) (job : Job)
      (se : StepExecution) (inst : WorkflowInstance) (d : WorkflowDefinition)
      (step : WorkflowStep) (g : Json → Json) (json : Json) (tx : Tx) (next : List StepId)
      (hcb : Callback db jobID job se inst)
      (hacc : (jobExecution now job se inst).acceptsCallback workerID = true)
      (hd : Runs svc inst d) (hstep : findStep d se.stepID = some step)
      (hadv : Advanced now d
        ⟨(closeJob now db jobID se.id workerID vars).patchVars inst.id g,
          { inst with vars := json }⟩ step tx next)
      (hleaves : step.leaves vars = true)
      (hjson : varsAfter inst.vars vars = .ok json)
      (hfails : tx.inst.status = .failed → advanceFails svc json step = true)
      (hvars : Merged inst.vars json g)
      (hwrites : WritesOnly (vars.map (·.1)) inst.vars json g) :
      Opened svc now db (.completeJob jobID workerID vars) (.dispatch d tx next)
  /-- A retryable failure: the job is replaced. -/
  | jobRetried (jobID : Nat) (workerID errorMessage : String) (job : Job)
      (se : StepExecution) (inst : WorkflowInstance)
      (hcb : Callback db jobID job se inst)
      (hacc : (jobExecution now job se inst).acceptsCallback workerID = true)
      (hretries : 0 < job.retriesRemaining) :
      Opened svc now db (.failJob jobID workerID errorMessage true)
        (.commit (enqueueReplacement svc now (db.markJobFailed jobID workerID)
          { job.toDispatchJob with retriesRemaining := job.retriesRemaining - 1 }) none)
  /-- A final failure: step and instance fail. -/
  | jobFailed (jobID : Nat) (workerID errorMessage : String) (retryable : Bool) (job : Job)
      (se : StepExecution) (inst : WorkflowInstance)
      (hcb : Callback db jobID job se inst)
      (hacc : (jobExecution now job se inst).acceptsCallback workerID = true)
      (hfinal : retryable = false ∨ job.retriesRemaining ≤ 0) :
      Opened svc now db (.failJob jobID workerID errorMessage retryable)
        (.commit (((db.markJobFailed jobID workerID).failStepExecutionByID now se.id
          errorMessage).markInstanceFailed now inst.id errorMessage) none)
  /-- A forced retry or a recovered lease: the job is replaced. -/
  | jobReplaced (op : Op) (jobID : Nat) (job : Job) (se : StepExecution)
      (inst : WorkflowInstance)
      (hop : op = .retryJob jobID ∨ (op = .sweepLease jobID ∧
        (jobExecution now job se inst).leaseValid = false))
      (hcb : Callback db jobID job se inst) (halive : Alive se inst)
      (hlocked : job.status = .locked) :
      Opened svc now db op
        (.commit (enqueueReplacement svc now (db.cancelLockedJob jobID)
          job.toDispatchJob) none)
  | leaseExtended (later : Time) (jobID : Nat) (workerID : String) (seconds lease : Int)
      (job : Job) (se : StepExecution) (inst : WorkflowInstance)
      (hcb : Callback db jobID job se inst) (halive : Alive se inst)
      (hlocked : job.status = .locked) (howner : job.workerID.getD "" = workerID)
      (hvalid : (jobExecution now job se inst).leaseValid = true) :
      Opened svc now db (.heartbeat later jobID workerID seconds)
        (.commit (db.updateJobs (renewable later jobID workerID) (renewed later lease)) none)
  | polled (workerID : String) (jobTypes : List String) (max : Nat) (seconds lease : Int)
      (rowLocked : List Nat) :
      Opened svc now db (.poll workerID jobTypes max seconds rowLocked)
        (.commit (db.pollJobs now workerID jobTypes max lease rowLocked).2 none)
  | userTaskCompleted (stepID : StepId) (vars : GoMap Value) (inst : WorkflowInstance)
      (d : WorkflowDefinition) (step : WorkflowStep) (result merged : Json) (g : Json → Json)
      (tx : Tx) (next : List StepId)
      (hinst : db.getInstance inst.id = some inst) (hflight : inst.status.inFlight = true)
      (hd : Runs svc inst d) (hstep : findStep d stepID = some step)
      (htype : step.type = .userTask)
      (hrows : (db.completeUserTask now inst.id stepID result).2 ≠ 0)
      (hadv : Advanced now d
        ⟨((db.completeUserTask now inst.id stepID result).1.completeStepExecutionByStep now
            inst.id stepID merged).1.patchVars inst.id g, { inst with vars := merged }⟩
        step tx next)
      (hmerged : mergeVariables inst.vars vars = .ok merged)
      (hfails : tx.inst.status = .failed → advanceFails svc merged step = true)
      (hvars : Merged inst.vars merged g)
      (hwrites : WritesOnly (vars.map (·.1)) inst.vars merged g) :
      Opened svc now db (.completeUserTask inst.id stepID vars) (.dispatch d tx next)
  | waitSignalled (stepID : StepId) (vars : GoMap Value) (inst : WorkflowInstance)
      (d : WorkflowDefinition) (step : WorkflowStep) (merged : Json) (g : Json → Json)
      (tx : Tx) (next : List StepId)
      (hinst : db.getInstance inst.id = some inst) (hflight : inst.status.inFlight = true)
      (hd : Runs svc inst d) (hstep : findStep d stepID = some step) (htype : step.type = .wait)
      (hrows : (db.completeStepExecutionByStep now inst.id stepID merged).2 ≠ 0)
      (hadv : Advanced now d
        ⟨(db.completeStepExecutionByStep now inst.id stepID merged).1.patchVars inst.id g,
          { inst with vars := merged }⟩ step tx next)
      (hmerged : mergeVariables inst.vars vars = .ok merged)
      (hfails : tx.inst.status = .failed → advanceFails svc merged step = true)
      (hparked : inst.currentStepIDs.contains stepID = true)
      (hvars : Merged inst.vars merged g)
      (hwrites : WritesOnly (vars.map (·.1)) inst.vars merged g) :
      Opened svc now db (.signalWait inst.id stepID vars) (.dispatch d tx next)
  /-- A timer is consumed without a dispatch. -/
  | timerConsumed (eventID : Nat) (inst : WorkflowInstance) (event : BoundaryEventSchedule)
      (hinst : db.getInstance inst.id = some inst)
      (hevent : db.boundaryEvents.find? (Db.dueEvent now eventID inst.id) = some event)
      (hdead : inst.status.inFlight = false ∨
        ∃ se, db.getStepExecution event.stepExecutionID = some se ∧ se.status ≠ .running) :
      Opened svc now db (.fireBoundaryEvent eventID inst.id)
        (.commit (db.markFired now eventID inst.id) none)
  /-- An interrupting timer closes its step and goes on to its target. -/
  | timerInterrupts (eventID : Nat) (inst : WorkflowInstance) (event : BoundaryEventSchedule)
      (se : StepExecution) (d : WorkflowDefinition)
      (hinst : db.getInstance inst.id = some inst)
      (hevent : db.boundaryEvents.find? (Db.dueEvent now eventID inst.id) = some event)
      (hinterrupting : event.interrupting = true)
      (hse : db.getStepExecution event.stepExecutionID = some se) (halive : Alive se inst)
      (hd : Runs svc inst d) :
      Opened svc now db (.fireBoundaryEvent eventID inst.id)
        (.dispatch d (Tx.removeFromCurrentSteps
          ⟨interruptStep now (db.markFired now eventID inst.id) se.id, inst⟩ se.stepID)
          [event.targetStepID])
  /-- A non-interrupting timer goes on to its target beside its step. -/
  | timerForks (eventID : Nat) (inst : WorkflowInstance) (event : BoundaryEventSchedule)
      (se : StepExecution) (d : WorkflowDefinition)
      (hinst : db.getInstance inst.id = some inst)
      (hevent : db.boundaryEvents.find? (Db.dueEvent now eventID inst.id) = some event)
      (hinterrupting : event.interrupting = false)
      (hse : db.getStepExecution event.stepExecutionID = some se) (halive : Alive se inst)
      (hd : Runs svc inst d) :
      Opened svc now db (.fireBoundaryEvent eventID inst.id)
        (.dispatch d ⟨db.markFired now eventID inst.id, inst⟩ [event.targetStepID])
  | housekept (retention : Int) :
      Opened svc now db (.deleteObsoleteBoundaryEvents retention)
        (.commit (db.deleteObsoleteBoundaryEvents now retention) none)
  | cancelled (inst : WorkflowInstance) (reason : String)
      (hinst : db.getInstance inst.id = some inst) (hflight : inst.status.inFlight = true) :
      Opened svc now db (.cancel inst.id reason) (.commit (db.cancelled now inst.id reason) none)
  | stepRetried (inst : WorkflowInstance) (stepID : StepId) (patch : GoMap Value)
      (d : WorkflowDefinition) (g : Json → Json) (json : Json)
      (hinst : db.getInstance inst.id = some inst) (hfailed : inst.status = .failed)
      (hlatest : db.getLatestStepExecutionStatus inst.id stepID = .ok .failed)
      (hd : Runs svc inst d) (step : WorkflowStep) (hstep : findStep d stepID = some step)
      (hvars : Merged inst.vars json g)
      (hwrites : WritesOnly (patch.map (·.1)) inst.vars json g) :
      Opened svc now db (.retryFailedStep inst.id stepID patch)
        (.dispatch d ⟨(db.reactivated inst.id).patchVars inst.id g,
          { inst with status := .active, failureReason := none, completedAt := none,
                      vars := json }⟩ [stepID])

section Inversion

variable {svc : Service} {now : Time} {db : Db} {p : Plan}

theorem getInstance_id {instanceID : Nat} {inst : WorkflowInstance}
    (h : db.getInstance instanceID = some inst) : inst.id = instanceID :=
  (Table.find_mem h).2

theorem getStepExecution_id {seID : Nat} {se : StepExecution}
    (h : db.getStepExecution seID = some se) : se.id = seID :=
  (Table.find_mem h).2

private theorem prepareStart_ok {definitionID : String} {version : Int} {vars : GoMap Value}
    {d : WorkflowDefinition} {json : Json}
    (h : prepareStart svc now definitionID version vars = .ok (d, json)) :
    svc.defRepo.getVersion d.id d.version = .ok d ∧ d.steps ≠ [] ∧
      (Value.obj vars).marshal = .ok json := by
  unfold prepareStart at h
  obtain ⟨d', hd, h⟩ := bind_eq_ok h
  simp only at h
  split at h
  · cases h
  rename_i hsteps
  split at h
  · cases h
  obtain ⟨_, hmarshal, h⟩ := bind_eq_ok h
  cases h
  refine ⟨?_, ?_, orMessage_eq_ok hmarshal⟩
  · split at hd
    · exact svc.defRepo.getLatest_version _ _ _ hd
    · obtain ⟨hid, hv⟩ := svc.defRepo.getVersion_key _ _ _ hd
      rw [hid, hv]
      exact hd
  · intro hnil
    simp [hnil] at hsteps

private theorem startInTx_ok {d : WorkflowDefinition} {vars : Json} {businessKey : String}
    {tx : Tx} {next : List StepId} (h : startInTx db d vars businessKey = .ok (tx, next)) :
    ∃ key, tx = startTx db d vars key ∧ next = [(d.steps.map (·.id)).headD ""] ∧
      key = if businessKey.isEmpty then none else some businessKey := by
  unfold startInTx at h
  generalize (if businessKey.isEmpty then none else some businessKey) = key at h ⊢
  obtain ⟨db', hdb, h⟩ := bind_eq_ok h
  cases h
  unfold Db.insertInstance at hdb
  split at hdb
  · cases hdb
  · cases hdb
    exact ⟨key, rfl, rfl, rfl⟩

private theorem start_opened {definitionID : String} {version : Int} {vars : GoMap Value}
    {businessKey : String} (h : start svc now db definitionID version vars businessKey = .ok p) :
    Opened svc now db (.start definitionID version vars businessKey) p := by
  unfold start at h
  obtain ⟨⟨d, json⟩, hprep, h⟩ := bind_eq_ok h
  obtain ⟨⟨tx, next⟩, htx, h⟩ := bind_eq_ok h
  cases h
  obtain ⟨hd, hsteps, hjson⟩ := prepareStart_ok hprep
  obtain ⟨key, rfl, rfl, hkey⟩ := startInTx_ok htx
  exact .started _ _ _ _ d json key hd hsteps hkey hjson

private theorem startChain_opened {source : Nat}
    (h : startChainedWorkflow svc now db source = .ok p) :
    Opened svc now db (.startChain source) p := by
  unfold startChainedWorkflow at h
  obtain ⟨request, hrequest, h⟩ := bind_eq_ok h
  obtain ⟨vars, hvars, h⟩ := bind_eq_ok h
  obtain ⟨⟨d, json⟩, hprep, h⟩ := bind_eq_ok h
  obtain ⟨hd, hsteps, hjson⟩ := prepareStart_ok hprep
  simp only at h
  split at h
  · cases h
    exact .ignored _ trivial
  · rename_i hclaim
    obtain ⟨⟨tx, next⟩, htx, h⟩ := bind_eq_ok h
    cases h
    obtain ⟨key, rfl, rfl, hkey⟩ := startInTx_ok htx
    exact .chainStarted source d json key hd hsteps (by simpa using hclaim) request
      (orError_eq_ok hrequest) ⟨vars, orMessage_eq_ok hvars, hjson⟩ hkey

private theorem mergeIntoInstance_ok {inst : WorkflowInstance} {delta : GoMap Value}
    {label : String} {tx : Tx} (h : mergeIntoInstance db inst delta label = .ok tx) :
    ∃ g json, tx = ⟨db.patchVars inst.id g, { inst with vars := json }⟩ ∧
      mergeVariables inst.vars delta = .ok json ∧ Merged inst.vars json g ∧
      WritesOnly (delta.map (·.1)) inst.vars json g := by
  unfold mergeIntoInstance at h
  obtain ⟨merged, hmerged, h⟩ := bind_eq_ok h
  obtain ⟨db', hdb, h⟩ := bind_eq_ok h
  obtain ⟨g, p, rfl, hp, hg⟩ := updateInstanceVariablesPartial_ok hdb
  cases h
  exact ⟨g, merged, rfl, orMessage_eq_ok hmerged,
    mergeVariables_merged (orMessage_eq_ok hmerged) hp hg,
    mergeVariables_writesOnly (orMessage_eq_ok hmerged) hp hg⟩

private theorem merge_unless_empty {inst : WorkflowInstance} {delta : GoMap Value}
    {label : String} {tx : Tx}
    (h : (if delta.isEmpty then pure { db := db, inst := inst }
      else mergeIntoInstance db inst delta label) = .ok tx) :
    ∃ g json, tx = ⟨db.patchVars inst.id g, { inst with vars := json }⟩ ∧
      varsAfter inst.vars delta = .ok json ∧ Merged inst.vars json g ∧
      WritesOnly (delta.map (·.1)) inst.vars json g := by
  unfold varsAfter
  split at h
  · rename_i hempty
    cases h
    exact ⟨id, inst.vars, by rw [patchVars_id], by rw [if_pos hempty], .keep fun _ => rfl,
      .keep fun _ => rfl⟩
  · rename_i hne
    obtain ⟨g, json, htx, hjson, hvars, hwrites⟩ := mergeIntoInstance_ok h
    exact ⟨g, json, htx, by rw [if_neg hne, hjson], hvars, hwrites⟩

private theorem completeJob_opened {jobID : Nat} {workerID : String} {vars : GoMap Value}
    (h : completeJobAndAdvance svc now db jobID workerID vars = .ok p) :
    Opened svc now db (.completeJob jobID workerID vars) p := by
  unfold completeJobAndAdvance at h
  obtain ⟨job, hjob, h⟩ := bind_eq_ok h
  obtain ⟨se, hse, h⟩ := bind_eq_ok h
  obtain ⟨inst, hinst, h⟩ := bind_eq_ok h
  obtain ⟨d, hd, h⟩ := bind_eq_ok h
  obtain ⟨step, hstep, h⟩ := bind_eq_ok h
  obtain ⟨state, hstate, h⟩ := bind_eq_ok h
  replace hjob := orError_eq_ok hjob
  replace hse := orError_eq_ok hse
  replace hinst := orError_eq_ok hinst
  replace hstep := orError_eq_ok hstep
  have hcb : Callback db jobID job se inst := ⟨hjob, hinst, hse⟩
  rw [lockJobExecution_of hcb] at hstate
  cases hstate
  have hid := getInstance_id hinst
  simp only at h
  split at h
  · rename_i hacc
    cases h
    exact .ignored _ ⟨job, se, inst, hcb, by simpa using hacc⟩
  · rename_i hacc
    replace hacc : (jobExecution now job se inst).acceptsCallback workerID = true := by
      simpa using hacc
    split at h
    · rename_i hinvalid
      cases h
      rw [← hid]
      exact .outputsRejected jobID workerID vars job se inst _ hcb hacc d hd step hstep
        (by simpa using hinvalid)
    · rename_i hvalid
      -- the instance is read again, after the job and the step are closed
      obtain ⟨inst', hinst', h⟩ := bind_eq_ok h
      replace hinst' := orError_eq_ok hinst'
      obtain rfl : inst = inst' := by
        have : (closeJob now db jobID se.id workerID vars).getInstance job.instanceID =
            db.getInstance job.instanceID := rfl
        rw [this, hinst] at hinst'
        exact Option.some.inj hinst'
      have hflight := (alive_of_acceptsCallback hacc).1.1
      simp only [InstanceStatus.terminal, hflight, Bool.not_true, Bool.false_eq_true,
        if_false] at h
      obtain ⟨tx, htx, h⟩ := bind_eq_ok h
      obtain ⟨g, json, rfl, hjson, hvars, hwrites⟩ := merge_unless_empty htx
      split at h
      · rename_i hnext
        cases h
        simp only [Bool.and_eq_true] at hnext
        exact .jobCompleted jobID workerID vars job se inst d step g hcb hacc hd hstep
          (by simpa using hnext.1) json hvars hwrites
      · rename_i hnext
        cases h
        have hleaves : step.leaves vars = true := by
          unfold WorkflowStep.leaves
          rw [Bool.and_eq_true]
          exact ⟨by simpa using hvalid, by simpa [Decidable.imp_iff_not_or] using hnext⟩
        exact .jobAdvanced jobID workerID vars job se inst d step g json _ _ hcb hacc hd hstep
          (advancePastStep_advanced ..) hleaves hjson advancePastStep_failed hvars hwrites

private theorem failJob_opened {jobID : Nat} {workerID errorMessage : String}
    {retryable : Bool} (h : failJob svc now db jobID workerID errorMessage retryable = .ok p) :
    Opened svc now db (.failJob jobID workerID errorMessage retryable) p := by
  unfold failJob at h
  obtain ⟨state, hstate, h⟩ := bind_eq_ok h
  obtain ⟨job, se, inst, hcb, rfl⟩ := lockJobExecution_eq_ok hstate
  split at h
  · rename_i hacc
    cases h
    exact .ignored _ ⟨job, se, inst, hcb, by simpa using hacc⟩
  · rename_i hacc
    replace hacc : (jobExecution now job se inst).acceptsCallback workerID = true := by
      simpa using hacc
    obtain ⟨job', hjob, h⟩ := bind_eq_ok h
    obtain rfl : job = job' := by
      have := orError_eq_ok hjob
      rw [hcb.job_eq] at this
      exact Option.some.inj this
    simp only at h
    split at h
    · rename_i hretry
      cases h
      simp only [Bool.and_eq_true, decide_eq_true_eq] at hretry
      rw [hretry.1]
      exact .jobRetried jobID workerID errorMessage job se inst hcb hacc hretry.2
    · rename_i hretry
      cases h
      rw [← getStepExecution_id hcb.se_eq, ← getInstance_id hcb.inst_eq]
      refine .jobFailed jobID workerID errorMessage retryable job se inst hcb hacc ?_
      cases retryable with
      | false => exact .inl rfl
      | true => exact .inr (by simpa using hretry)

private theorem retryJob_opened {op : Op} {jobID : Nat} {expiredOnly : Bool}
    (hop : op = .retryJob jobID ∨ (op = .sweepLease jobID ∧ expiredOnly = true))
    (h : retryJob svc now db jobID expiredOnly = .ok p) : Opened svc now db op p := by
  unfold retryJob at h
  obtain ⟨state, hstate, h⟩ := bind_eq_ok h
  obtain ⟨job, se, inst, hcb, rfl⟩ := lockJobExecution_eq_ok hstate
  split at h
  · cases h
    refine .ignored _ ?_
    rcases hop with rfl | ⟨rfl, -⟩ <;> trivial
  · rename_i hguard
    simp only [Bool.or_eq_true, Bool.not_eq_true', bne_iff_ne, Bool.and_eq_true, not_or,
      not_and, Bool.not_eq_false, Bool.not_eq_true, ne_eq, Decidable.not_not] at hguard
    obtain ⟨⟨hactive, hlocked⟩, hlease⟩ := hguard
    obtain ⟨job', hjob, h⟩ := bind_eq_ok h
    have hlocked' : job.status = .locked := hlocked
    have hdisp : job'.toDispatchJob = job.toDispatchJob := by
      -- the row is read again after its status is written
      have hjob' := orError_eq_ok hjob
      have hfind := hcb.job_eq
      unfold Db.getJob at hjob' hfind
      rw [Db.cancelLockedJob_jobs, Table.find_update ?_ db.jobs, hfind] at hjob'
      · simp only [Option.map_some, Option.some.injEq] at hjob'
        rw [← hjob']
        split <;> rfl
      · exact fun _ => rfl
    cases h
    rw [hdisp]
    refine .jobReplaced op jobID job se inst ?_ hcb (active_iff.mp hactive) hlocked'
    rcases hop with hop | ⟨hop, hexp⟩
    · exact .inl hop
    · exact .inr ⟨hop, hlease hexp⟩

private theorem extendLease_opened {later : Time} {jobID : Nat} {workerID : String}
    {seconds : Int} (h : extendLease now later db jobID workerID seconds = .ok p) :
    Opened svc now db (.heartbeat later jobID workerID seconds) p := by
  unfold extendLease at h
  split at h
  · cases h
  obtain ⟨lease, _, h⟩ := bind_eq_ok h
  split at h
  · cases h
  · rename_i db' hdb
    cases h
    unfold extendJobLease at hdb
    split at hdb
    · cases hdb
    · rename_i state hstate
      obtain ⟨job, se, inst, hcb, rfl⟩ := lockJobExecution_eq_ok hstate
      split at hdb
      · cases hdb
      · rename_i hguard
        simp only [Bool.or_eq_true, Bool.not_eq_true', bne_iff_ne, not_or, Bool.not_eq_false,
          ne_eq, Decidable.not_not] at hguard
        obtain ⟨⟨⟨hactive, hlocked⟩, howner⟩, hvalid⟩ := hguard
        split at hdb
        · cases hdb
          exact .leaseExtended later jobID workerID seconds lease job se inst hcb
            (active_iff.mp hactive) hlocked howner hvalid
        · cases hdb

private theorem completeUserTask_opened {instanceID : Nat} {stepID : StepId}
    {vars : GoMap Value}
    (h : completeUserTaskAndAdvance svc now db instanceID stepID vars = .ok p) :
    Opened svc now db (.completeUserTask instanceID stepID vars) p := by
  unfold completeUserTaskAndAdvance at h
  obtain ⟨inst, hinst, h⟩ := bind_eq_ok h
  obtain ⟨d, hd, h⟩ := bind_eq_ok h
  obtain ⟨step, hstep, h⟩ := bind_eq_ok h
  replace hinst := orError_eq_ok hinst
  obtain rfl := getInstance_id hinst
  simp only at h
  split at h
  · cases h
  rename_i htype
  rw [hinst] at h
  obtain ⟨inst', hinst', h⟩ := bind_eq_ok h
  cases hinst'
  split at h
  · cases h
  rename_i hterm
  obtain ⟨merged, hmerged, h⟩ := bind_eq_ok h
  obtain ⟨result, _, h⟩ := bind_eq_ok h
  split at h
  · cases h
  rename_i hrows
  obtain ⟨db', hdb, h⟩ := bind_eq_ok h
  obtain ⟨g, p, rfl, hp, hg⟩ := updateInstanceVariablesPartial_ok hdb
  cases h
  exact .userTaskCompleted stepID vars inst d step result merged g _ _ hinst
    (by simpa [InstanceStatus.terminal] using hterm) hd (orError_eq_ok hstep)
    (by simpa using htype) hrows (advancePastStep_advanced ..) (orMessage_eq_ok hmerged)
    advancePastStep_failed (mergeVariables_merged (orMessage_eq_ok hmerged) hp hg)
    (mergeVariables_writesOnly (orMessage_eq_ok hmerged) hp hg)

private theorem signalWait_opened {instanceID : Nat} {stepID : StepId} {vars : GoMap Value}
    (h : signalWaitAndAdvance svc now db instanceID stepID vars = .ok p) :
    Opened svc now db (.signalWait instanceID stepID vars) p := by
  unfold signalWaitAndAdvance at h
  obtain ⟨inst, hinst, h⟩ := bind_eq_ok h
  obtain ⟨d, hd, h⟩ := bind_eq_ok h
  obtain ⟨step, hstep, h⟩ := bind_eq_ok h
  replace hinst := orError_eq_ok hinst
  obtain rfl := getInstance_id hinst
  simp only at h
  split at h
  · cases h
  rename_i htype
  rw [hinst] at h
  obtain ⟨inst', hinst', h⟩ := bind_eq_ok h
  cases hinst'
  split at h
  · cases h
  rename_i hterm
  split at h
  · cases h
  rename_i hparked
  obtain ⟨merged, hmerged, h⟩ := bind_eq_ok h
  split at h
  · cases h
  rename_i hrows
  obtain ⟨db', hdb, h⟩ := bind_eq_ok h
  obtain ⟨g, p, rfl, hp, hg⟩ := updateInstanceVariablesPartial_ok hdb
  cases h
  exact .waitSignalled stepID vars inst d step merged g _ _ hinst
    (by simpa [InstanceStatus.terminal] using hterm) hd (orError_eq_ok hstep)
    (by simpa using htype) hrows (advancePastStep_advanced ..) (orMessage_eq_ok hmerged)
    advancePastStep_failed (by simpa using hparked)
    (mergeVariables_merged (orMessage_eq_ok hmerged) hp hg)
    (mergeVariables_writesOnly (orMessage_eq_ok hmerged) hp hg)

private theorem markFired_none {eventID instanceID : Nat}
    (h : db.boundaryEvents.find? (Db.dueEvent now eventID instanceID) = none) :
    db.markFired now eventID instanceID = db := by
  unfold Db.markFired
  rw [Table.update_eq_self]
  intro r hr
  simpa using List.find?_eq_none.mp h r hr

private theorem fireBoundaryEvent_opened {eventID instanceID : Nat}
    (h : fireBoundaryEvent svc now db eventID instanceID = .ok p) :
    Opened svc now db (.fireBoundaryEvent eventID instanceID) p := by
  unfold fireBoundaryEvent at h
  obtain ⟨inst, hinst, h⟩ := bind_eq_ok h
  obtain ⟨d, hd, h⟩ := bind_eq_ok h
  replace hinst := orError_eq_ok hinst
  obtain rfl := getInstance_id hinst
  rw [hinst] at h
  obtain ⟨inst', hinst', h⟩ := bind_eq_ok h
  cases hinst'
  unfold Db.claimDueBoundaryEvent at h
  cases hevent : db.boundaryEvents.find? (Db.dueEvent now eventID inst.id) with
  | none =>
    simp only [hevent] at h
    cases h
    rw [markFired_none hevent]
    exact .ignored _ hevent
  | some event =>
    simp only [hevent] at h
    split at h
    · rename_i hdead
      cases h
      exact .timerConsumed eventID inst event hinst hevent (.inl (by simpa using hdead))
    · rename_i hflight
      obtain ⟨se, hse, h⟩ := bind_eq_ok h
      replace hse : db.getStepExecution event.stepExecutionID = some se := orError_eq_ok hse
      split at h
      · rename_i hrun
        cases h
        exact .timerConsumed eventID inst event hinst hevent (.inr ⟨se, hse, hrun⟩)
      · rename_i hrun
        have halive : Alive se inst := ⟨by simpa using hflight, by simpa using hrun⟩
        split at h
        · rename_i hint
          cases h
          rw [← getStepExecution_id hse]
          exact .timerInterrupts eventID inst event se d hinst hevent hint hse halive hd
        · rename_i hint
          cases h
          exact .timerForks eventID inst event se d hinst hevent (by simpa using hint) hse
            halive hd

private theorem cancel_opened {instanceID : Nat} {reason : String}
    (h : (db.cancelInstance now instanceID reason).map (fun db => Plan.commit db none) = .ok p) :
    Opened svc now db (.cancel instanceID reason) p := by
  unfold Db.cancelInstance at h
  split at h
  · cases h
  · rename_i inst hinst
    obtain rfl := getInstance_id hinst
    split at h
    · rename_i hflight
      cases h
      exact .cancelled inst reason hinst hflight
    · cases h

private theorem retryFailedStep_opened {instanceID : Nat} {stepID : StepId}
    {patch : GoMap Value} (h : retryFailedStep svc db instanceID stepID patch = .ok p) :
    Opened svc now db (.retryFailedStep instanceID stepID patch) p := by
  unfold retryFailedStep at h
  simp only at h
  split at h
  · cases h
  obtain ⟨inst, hinst, h⟩ := bind_eq_ok h
  obtain ⟨d, hd, h⟩ := bind_eq_ok h
  obtain ⟨step, hstep, h⟩ := bind_eq_ok h
  replace hinst := orError_eq_ok hinst
  obtain rfl := getInstance_id hinst
  rw [hinst] at h
  obtain ⟨inst', hinst', h⟩ := bind_eq_ok h
  cases hinst'
  split at h
  · cases h
  rename_i hfailed
  obtain ⟨latest, hlatest, h⟩ := bind_eq_ok h
  split at h
  · cases h
  rename_i hlf
  obtain rfl : latest = .failed := by simpa using hlf
  obtain ⟨db', hdb, h⟩ := bind_eq_ok h
  unfold Db.reactivateInstance at hdb
  split at hdb
  · cases hdb
  obtain ⟨tx, htx, h⟩ := bind_eq_ok h
  cases hdb
  obtain ⟨g, json, rfl, -, hvars, hwrites⟩ := merge_unless_empty htx
  cases h
  exact .stepRetried inst stepID patch d g json hinst (by simpa using hfailed) hlatest hd step
    (orError_eq_ok hstep) hvars hwrites

/-- The inversion lemma. -/
theorem plan_opened {op : Op} (h : plan svc now db op = .ok p) : Opened svc now db op p := by
  cases op with
  | start definitionID version vars businessKey => exact start_opened h
  | completeJob jobID workerID vars => exact completeJob_opened h
  | failJob jobID workerID errorMessage retryable => exact failJob_opened h
  | heartbeat later jobID workerID seconds => exact extendLease_opened h
  | retryJob jobID => exact retryJob_opened (.inl rfl) h
  | sweepLease jobID => exact retryJob_opened (.inr ⟨rfl, rfl⟩) h
  | poll workerID jobTypes max seconds rowLocked =>
    simp only [plan] at h
    cases hpoll : pollWithLease now db workerID jobTypes max seconds rowLocked with
    | error e =>
      rw [hpoll] at h
      cases h
    | ok r =>
      rw [hpoll] at h
      cases h
      unfold pollWithLease at hpoll
      obtain ⟨lease, _, hpoll⟩ := bind_eq_ok hpoll
      cases hpoll
      exact .polled workerID jobTypes max seconds lease rowLocked
  | completeUserTask instanceID stepID vars => exact completeUserTask_opened h
  | signalWait instanceID stepID vars => exact signalWait_opened h
  | fireBoundaryEvent eventID instanceID => exact fireBoundaryEvent_opened h
  | deleteObsoleteBoundaryEvents retention =>
    cases h
    exact .housekept retention
  | cancel instanceID reason => exact cancel_opened h
  | retryFailedStep instanceID stepID patch => exact retryFailedStep_opened h
  | startChain source => exact startChain_opened h

end Inversion

end Rochallor
